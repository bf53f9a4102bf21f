import FlatSol.Proofs.Source.Apart
import FlatSol.Proofs.Source.Body
import FlatSol.Proofs.Source.HeaderCut
import FlatSol.Proofs.Source.ImportForm
import FlatSol.Proofs.Source.LiteralStart

/-!
# Literals of a text with cuts

Main statement: if nothing begins in the text of a literal, then nothing is found that begins in one,
and every literal that no pragma or import statement reaches stands in the body as it is.
-/

namespace FlatSol

open Text Lexeme

namespace Source

/-! ### Cuts that reach no literal -/

/-- The rest of a line that is cut with a statement ends before a character that is not blank. -/
theorem lineRestEnd_le {t a b : Text} {c : Char} {n : Nat} (ht : t = a ++ c :: b)
    (hc : isBlank c = false) (hn : isBoundary n t = true) (hle : n ≤ byteSize a) :
    lineRestEnd t n ≤ byteSize a := by
  obtain ⟨u, w, v, hsplit, rfl, hw, hend⟩ := exists_lineRestEnd hn
  rw [hend]
  by_contra hlt
  obtain ⟨z, hz, hcut⟩ := exists_append_of_byteSize_le (a := a) (b := c :: b) (x := u ++ w) (y := v)
    (ht.symm.trans hsplit) (by omega)
  obtain ⟨y, rfl, hy⟩ := exists_append_of_byteSize_le hz hle
  cases z with
  | nil =>
    rw [hz, List.append_nil] at hlt
    exact hlt (Nat.le_refl _)
  | cons d ds =>
    obtain rfl : c = d := (List.cons.inj hcut).1
    have hblank := hw c (by rw [hy]; simp)
    rw [hc] at hblank
    cases hblank

/-- The bytes of the pragma and import statements that are found in a text. -/
def statementSpans (t : Text) : List Span :=
  (pragmaStatement.findAll (mask t)).map Found.span ++
    (importStatement.findAll (mask t)).map Found.span

theorem isBoundary_stop_of_statement {t : Text} {s : Span} (h : s ∈ statementSpans t) :
    isBoundary s.stop t = true := by
  rcases List.mem_append.1 h with h | h
  · obtain ⟨f, hf, rfl⟩ := List.mem_map.1 h
    exact isBoundary_stop_of_pragma hf
  · obtain ⟨f, hf, rfl⟩ := List.mem_map.1 h
    exact isBoundary_stop_of_import hf

variable {t : Text} {strip : List Span}

/-- A cut is a licence line, or a statement with the rest of its line. -/
theorem exists_of_mem_cutSpans (hstrip : ∀ s ∈ strip, ∃ d ∈ imports t, d.span = s) {s : Span}
    (hs : s ∈ cutSpans t strip) : (∃ f ∈ licenses t, f.span = s) ∨
      ∃ r ∈ statementSpans t, s = ⟨r.start, lineRestEnd t r.stop⟩ := by
  rw [cutSpans, List.mem_append, List.mem_append, List.mem_map, List.mem_map] at hs
  rcases hs with (hs | hs) | ⟨f, hf, rfl⟩
  · obtain ⟨d, hd, rfl⟩ := hstrip s hs
    obtain ⟨f, hf, rfl⟩ := List.mem_map.1 hd
    exact .inr ⟨f.span, List.mem_append_right _ (List.mem_map_of_mem hf), rfl⟩
  · exact .inl hs
  · obtain ⟨g, hg, rfl⟩ := List.mem_map.1 hf
    exact .inr ⟨g.span, List.mem_append_left _ (List.mem_map_of_mem hg), rfl⟩

/-- A part of the text that no licence line and no statement reaches stays, if it does not begin with
white space. -/
theorem stays_of_apart (hstrip : ∀ s ∈ strip, ∃ d ∈ imports t, d.span = s) {a w b : Text} {c : Char}
    (ht : t = a ++ (c :: w) ++ b) (hc : isBlank c = false)
    (hlicense : ∀ f ∈ licenses t,
      f.span.stop ≤ byteSize a ∨ byteSize (a ++ c :: w) ≤ f.span.start)
    (hstatement : ∀ s ∈ statementSpans t, s.stop ≤ byteSize a ∨ byteSize (a ++ c :: w) ≤ s.start) :
    ∀ k, byteSize a ≤ k → k < byteSize a + byteSize (c :: w) → stays t strip k = true := by
  intro k hk hk'
  rw [← byteSize_append] at hk'
  rw [stays, Bool.not_eq_true', covers_eq_false_iff]
  intro s hs hstart
  rcases exists_of_mem_cutSpans hstrip hs with ⟨f, hf, rfl⟩ | ⟨r, hr, rfl⟩
  · have happart := hlicense f hf
    omega
  · have happart := hstatement r hr
    have happend : t = a ++ c :: (w ++ b) := by simpa using ht
    have hrest := lineRestEnd_le happend hc (isBoundary_stop_of_statement hr)
    simp only at hstart ⊢
    omega

/-- A part of the text that stays stands in what is left of it. -/
theorem cut_append_of_stays (h : ∀ s ∈ cutSpans t strip, Fits t s) {a w b : Text}
    (ht : t = a ++ w ++ b)
    (hstays : ∀ k, byteSize a ≤ k → k < byteSize a + byteSize w → stays t strip k = true) :
    cut (cutSpans t strip) t =
      keep (stays t strip) 0 a ++ w ++ keep (stays t strip) (byteSize (a ++ w)) b := by
  have hkeep : ∀ p, keep p 0 t = keep p 0 a ++ keep p (byteSize a) w ++ keep p (byteSize (a ++ w)) b := by
    intro p
    rw [ht, keep_append, keep_append, Nat.zero_add, Nat.zero_add]
  rw [cut_eq_keep h]
  show keep (stays t strip) 0 t = _
  rw [hkeep, keep_eq_self hstays]

/-! ### The body -/

variable {ls : List Lexeme}

/-- Nothing is found that begins in a literal, and a literal that belongs to no pragma or import
stands in the body, behind what stays of the text before it. -/
structure SparesLiterals (ls : List Lexeme) (strip : List Span) (parts : SourceParts) : Prop where
  license_apart : ∀ f ∈ licenses (textOf ls), ∀ s ∈ literalSpans 0 ls,
    f.span.stop ≤ s.start ∨ s.stop ≤ f.span.start
  pragma_start : ∀ f ∈ pragmaStatement.findAll (mask (textOf ls)),
    covers (literalSpans 0 ls) f.span.start = false ∧ ¬ InComment ls f.span.start
  import_start : ∀ f ∈ importStatement.findAll (mask (textOf ls)),
    covers (literalSpans 0 ls) f.span.start = false
  license : ∀ k ∈ parts.license, ∃ f ∈ licenses (textOf ls), f.value = k
  pragma : ∀ k, k ∈ parts.versionPragma ∨ k ∈ parts.otherPragmas →
    ∃ f ∈ pragmaStatement.findAll (mask (textOf ls)), f.value.statement = k
  body : ∀ before q m behind, ls = before ++ .literal q m q :: behind →
    (∀ s ∈ statementSpans (textOf ls), s.stop ≤ byteSize (textOf before) ∨
      byteSize (textOf before ++ text (.literal q m q)) ≤ s.start) →
    ∃ x y, parts.body = x ++ text (.literal q m q) ++ y ∧
      squeeze x = squeeze (keep (stays (textOf ls) strip) 0 (textOf before))

theorem exists_pragma_of_split {k : Text}
    (h : k ∈ (split t strip).versionPragma ∨ k ∈ (split t strip).otherPragmas) :
    ∃ f ∈ pragmaStatement.findAll (mask t), f.value.statement = k := by
  have hfound : ∀ p ∈ (pragmas t).map Found.value, p.statement = k →
      ∃ f ∈ pragmaStatement.findAll (mask t), f.value.statement = k := by
    intro p hp hk
    obtain ⟨f, hf, rfl⟩ := List.mem_map.1 hp
    obtain ⟨g, hg, rfl⟩ := List.mem_map.1 hf
    exact ⟨g, hg, hk⟩
  rcases h with h | h
  · obtain ⟨p, hp, hk⟩ := Option.map_eq_some_iff.1 h
    exact hfound p (List.mem_of_mem_filter (List.mem_of_mem_head? hp)) hk
  · obtain ⟨p, hp, hk⟩ := List.mem_map.1 (List.mem_eraseDups.1 h)
    exact hfound p (List.mem_of_mem_filter hp) hk

/-- A terminated literal that no statement reaches stands in the body. -/
theorem exists_body_of_literal (hls : Lexed ls) (hplain : PlainLiterals ls)
    (hstrip : ∀ s ∈ strip, ∃ d ∈ imports (textOf ls), d.span = s) {before behind : List Lexeme}
    {q : Char} {m : Text} (hsplit : ls = before ++ .literal q m q :: behind)
    (happart : ∀ s ∈ statementSpans (textOf ls), s.stop ≤ byteSize (textOf before) ∨
      byteSize (textOf before ++ text (.literal q m q)) ≤ s.start) :
    ∃ x y, (split (textOf ls) strip).body = x ++ text (.literal q m q) ++ y ∧
      squeeze x = squeeze (keep (stays (textOf ls) strip) 0 (textOf before)) := by
  have hbefore : (Lexeme.literal q m q).Before (textOf behind) := by
    rw [hsplit] at hls
    exact hls.before_of_append
  obtain ⟨hq, hm, -⟩ := hbefore
  have hblank : isBlank q = false := isBlank_of_isQuote hq
  have htext : textOf ls = textOf before ++ (q :: (m ++ [q])) ++ textOf behind := by
    rw [hsplit, textOf_append, textOf_cons]
    simp [text]
  have hspan : (⟨byteSize (textOf before), byteSize (textOf before ++ q :: (m ++ [q]))⟩ : Span) ∈
      literalSpans 0 ls := by
    rw [hsplit, byteSize_append]
    exact mem_literalSpans_append (l := .literal q m q) rfl
  have hstays := stays_of_apart hstrip htext hblank
    (fun f hf => literal_license_apart hls hplain hf hspan) happart
  have hbody : (split (textOf ls) strip).body = asBlock (cut (cutSpans (textOf ls) strip)
      (textOf ls)) := rfl
  rw [hbody, cut_append_of_stays (fits_of_strip hstrip) htext hstays]
  exact exists_asBlock_append hblank (ne_of_isBlank rfl hblank).symm (hm.firm hq)

/-- If nothing begins in the text of a literal, then splitting a source text does not look into its
literals. -/
theorem split?_sparesLiterals (hls : Lexed ls) (hplain : PlainLiterals ls)
    (hstrip : ∀ s ∈ strip, ∃ d ∈ imports (textOf ls), d.span = s) :
    ∃ parts, split? (textOf ls) strip = some parts ∧ SparesLiterals ls strip parts := by
  have hfits : ∀ s ∈ strip, Fits (textOf ls) s := by
    intro s hs
    obtain ⟨d, hd, rfl⟩ := hstrip s hs
    exact fits_of_mem_imports hd
  refine ⟨split (textOf ls) strip, split?_of_fits hfits, ?_⟩
  constructor
  case license_apart => exact fun f hf s hs => literal_license_apart hls hplain hf hs
  case pragma_start =>
    exact fun f hf => ⟨literal_pragma_start hls hplain hf, not_inComment_pragma_start hls hf⟩
  case import_start => exact fun f hf => literal_import_start hls hplain hf
  case license =>
    intro k hk
    obtain ⟨f, hf, rfl⟩ := Option.map_eq_some_iff.1 hk
    exact ⟨f, List.mem_of_mem_head? hf, rfl⟩
  case pragma => exact fun k hk => exists_pragma_of_split hk
  case body =>
    exact fun before q m behind hsplit happart =>
      exists_body_of_literal hls hplain hstrip hsplit happart

/-! ### Texts with literals -/

theorem before_literal {q : Char} {m : Text} (hq : isQuote q = true)
    (hm : m.all Scan.isPlain = true) (rest : Text) : (Lexeme.literal q m q).Before rest := by
  refine ⟨hq, quoted_of_plain hq fun c hc => ?_, .inl rfl⟩
  have hplain : ((c ≠ '\n' ∧ c ≠ '*') ∧ c ≠ '\\') ∧ isQuote c = false := by
    simpa [Scan.isPlain] using List.all_eq_true.1 hm c hc
  exact ⟨hplain.2, hplain.1.2, hplain.1.1.1⟩

theorem lacks_license_of_notMem {t : Text} (h : '/' ∉ t) : Lacks beginsLicense t := by
  rintro a b rfl
  rw [Bool.eq_false_iff]
  intro hbegins
  obtain ⟨gap, r, -, rfl⟩ := startsMark_eq_true_iff.1 (Bool.and_eq_true_iff.1 hbegins).2
  exact h (by simp)

/-- An import, and a literal with the keyword of a pragma in it. -/
def besideImport : List Lexeme :=
  "import ".toList.map .code ++ .literal '"' ['a'] '"' ::
    (";\ns = ".toList.map .code ++ [.literal '"' "a pragma".toList '"', .code ';'])

theorem split?_sparesLiterals_besideImport :
    Lexed besideImport ∧ PlainLiterals besideImport ∧
      (∀ s ∈ [⟨0, 12⟩], ∃ d ∈ imports (textOf besideImport), d.span = s) ∧
        ∃ parts x y, split? (textOf besideImport) [⟨0, 12⟩] = some parts ∧
          parts.body = x ++ "\"a pragma\"".toList ++ y ∧ squeeze x = "s=".toList := by
  have hlexed : Lexed besideImport :=
    lexed_codes_append rfl ⟨before_literal rfl rfl _,
      lexed_codes_append rfl ⟨before_literal rfl rfl _, ⟨rfl, by decide⟩, trivial⟩⟩
  have hliterals : ∀ l ∈ besideImport, l.isLiteral = true →
      l = .literal '"' ['a'] '"' ∨ l = .literal '"' "a pragma".toList '"' := by decide
  have hplain : PlainLiterals besideImport := by
    constructor
    case pragmas =>
      intro l hl hlit
      rcases hliterals l hl hlit with rfl | rfl <;> unfold Lacks <;> decide
    case imports =>
      intro l hl hlit
      rcases hliterals l hl hlit with rfl | rfl <;> unfold Lacks <;> decide
    case licenses =>
      intro l hl hlit
      rcases hliterals l hl hlit with rfl | rfl <;> exact lacks_license_of_notMem (by decide)
    case comments =>
      have hcomments : ∀ l ∈ besideImport, l.isComment = false := by decide
      exact fun c hc => Bool.noConfusion (hcomments _ hc)
  have hstrip : ∀ s ∈ [⟨0, 12⟩], ∃ d ∈ imports (textOf besideImport), d.span = s := by
    have himports : (imports (textOf besideImport)).map ImportDirective.span = [⟨0, 12⟩] := by cbv
    intro s hs
    rw [← himports] at hs
    exact List.mem_map.1 hs
  have hstatements : statementSpans (textOf besideImport) = [⟨0, 11⟩] := by cbv
  have hcuts : cutSpans (textOf besideImport) [⟨0, 12⟩] = [⟨0, 12⟩] := by cbv
  obtain ⟨parts, hparts, hspares⟩ := split?_sparesLiterals hlexed hplain hstrip
  obtain ⟨x, y, hbody, hx⟩ := hspares.body ("import ".toList.map .code ++ .literal '"' ['a'] '"' ::
    ";\ns = ".toList.map .code) '"' "a pragma".toList [.code ';'] rfl
      (by rw [hstatements]; decide)
  refine ⟨hlexed, hplain, hstrip, parts, x, y, hparts, hbody, ?_⟩
  unfold stays at hx
  rw [hx, hcuts]
  decide

/-- A literal with a pragma statement in it. -/
def pragmaLiteral : List Lexeme :=
  "string s = ".toList.map .code ++ [.literal '"' "pragma solidity ^0.8.0;".toList '"', .code ';']

/-- The statement in the literal is taken for the version pragma, and cut out. -/
theorem split_pragmaLiteral :
    Lexed pragmaLiteral ∧ literalSpans 0 pragmaLiteral = [⟨11, 36⟩] ∧
      statementSpans (textOf pragmaLiteral) = [⟨12, 35⟩] ∧
        (split (textOf pragmaLiteral) []).versionPragma = some "pragma solidity ^0.8.0;".toList ∧
          ¬ "\"pragma solidity ^0.8.0;\"".toList <:+: (split (textOf pragmaLiteral) []).body := by
  have hbody : (split (textOf pragmaLiteral) []).body = "string s = \"\";".toList := by cbv
  refine ⟨lexed_codes_append rfl ⟨before_literal rfl rfl _, ⟨rfl, by decide⟩, trivial⟩,
    by decide, by cbv, by cbv, ?_⟩
  rw [hbody]
  decide

end Source

end FlatSol
