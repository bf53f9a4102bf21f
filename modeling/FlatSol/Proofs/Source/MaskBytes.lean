import FlatSol.Proofs.Source.Lexeme
import FlatSol.Text.Utf8

/-!
# Masking byte by byte

The bytes of a text can be masked without decoding them, since every byte that means something to
the reader is a character of its own: the bytes of a longer character all lie above them. Main
statements: the bytes left by such a reader are those of the masked text, so they decode; and they
are the bytes of the source, with a space for each byte of a comment other than a line feed.
-/

namespace FlatSol

open Text

/-- What the next byte belongs to. -/
inductive ByteRegion
  | code
  | lineComment
  | blockComment
  | literal (quote : UInt8)
deriving DecidableEq, Repr

namespace Source

/-- The bytes 47, 42, 34, 39, 92, 10 and 32 are a slash, a star, the two quotes, a backslash, a line
feed and a space. -/
def maskBytesFrom : ByteRegion → List UInt8 → List UInt8
  | _, [] => []
  | .code, 47 :: 47 :: bs => 32 :: 32 :: maskBytesFrom .lineComment bs
  | .code, 47 :: 42 :: bs => 32 :: 32 :: maskBytesFrom .blockComment bs
  | .code, b :: bs => b :: maskBytesFrom (if b = 34 ∨ b = 39 then .literal b else .code) bs
  | .lineComment, b :: bs =>
    (if b = 10 then b else 32) :: maskBytesFrom (if b = 10 then .code else .lineComment) bs
  | .blockComment, 42 :: 47 :: bs => 32 :: 32 :: maskBytesFrom .code bs
  | .blockComment, b :: bs => (if b = 10 then b else 32) :: maskBytesFrom .blockComment bs
  | .literal q, 92 :: b :: bs => 92 :: b :: maskBytesFrom (.literal q) bs
  | .literal q, b :: bs => b :: maskBytesFrom (if b = q ∨ b = 10 then .code else .literal q) bs

def maskBytes (b : ByteArray) : ByteArray :=
  (maskBytesFrom .code b.data.toList).toByteArray

/-- The masked bytes as a text; `lossy` reads bytes that are not UTF-8. -/
def maskDecoded (lossy : ByteArray → Text) (t : Text) : Text :=
  (ofBytes? (maskBytes t.toBytes)).getD (lossy (maskBytes t.toBytes))

end Source

/-! ### The bytes of a text -/

namespace Text

def bytes (t : Text) : List UInt8 :=
  t.toBytes.data.toList

theorem bytes_eq_flatMap (t : Text) : bytes t = t.flatMap String.utf8EncodeChar := by
  rw [bytes, toBytes, String.toByteArray_ofList, List.utf8Encode, List.toList_data_toByteArray]

@[simp] theorem bytes_nil : bytes [] = [] := by
  rw [bytes_eq_flatMap, List.flatMap_nil]

@[simp] theorem bytes_cons (c : Char) (cs : Text) :
    bytes (c :: cs) = String.utf8EncodeChar c ++ bytes cs := by
  rw [bytes_eq_flatMap, bytes_eq_flatMap, List.flatMap_cons]

@[simp] theorem bytes_append (s t : Text) : bytes (s ++ t) = bytes s ++ bytes t := by
  rw [bytes_eq_flatMap, bytes_eq_flatMap, bytes_eq_flatMap, List.flatMap_append]

theorem toByteArray_bytes (t : Text) : (bytes t).toByteArray = t.toBytes := by
  apply ByteArray.ext
  rw [List.data_toByteArray, bytes, Array.toArray_toList]

theorem length_bytes (t : Text) : (bytes t).length = byteSize t := by
  induction t with
  | nil => rw [bytes_nil, byteSize_nil, List.length_nil]
  | cons c cs ih =>
    rw [bytes_cons, List.length_append, String.length_utf8EncodeChar, ih, byteSize_cons]

end Text

/-- A character whose UTF-8 form is one byte. -/
def isSingle (c : Char) : Bool :=
  c.toNat < 128

theorem encode_single {c : Char} (h : isSingle c = true) :
    String.utf8EncodeChar c = [c.toUInt8] := by
  have hc : c.val.toNat ≤ 127 := Nat.le_of_lt_succ (of_decide_eq_true h)
  rw [String.utf8EncodeChar, if_pos hc]
  rfl

/-- The bytes of a longer character are none of those that the reader looks for. -/
def Wide (w : List UInt8) : Prop :=
  ∀ b ∈ w, 128 ≤ b.toNat

theorem wide_encode {c : Char} (h : isSingle c = false) : Wide (String.utf8EncodeChar c) := by
  have hc : 128 ≤ c.val.toNat := Nat.le_of_not_lt (of_decide_eq_false h)
  unfold Wide
  fun_cases String.utf8EncodeChar c
  · omega
  · simp
    omega
  · simp
    omega
  · simp
    omega

theorem eq_of_toUInt8_eq {c d : Char} (hc : isSingle c = true) (hd : isSingle d = true)
    (h : c.toUInt8 = d.toUInt8) : c = d := by
  have hc' : c.val.toNat < 128 := of_decide_eq_true hc
  have hd' : d.val.toNat < 128 := of_decide_eq_true hd
  have hnat : c.val.toNat % 256 = d.val.toNat % 256 := congrArg UInt8.toNat h
  apply Char.ext
  apply UInt32.toNat.inj
  omega

theorem toUInt8_eq_iff {c d : Char} (hc : isSingle c = true) (hd : isSingle d = true) :
    c.toUInt8 = d.toUInt8 ↔ c = d :=
  ⟨eq_of_toUInt8_eq hc hd, fun h => by rw [h]⟩

/-- The first byte of a text is one of the single characters only when that character is first. -/
theorem head_of_bytes {c : Char} {t : Text} {bs : List UInt8} (hc : isSingle c = true)
    (h : bytes t = c.toUInt8 :: bs) : ∃ cs, t = c :: cs := by
  cases t with
  | nil =>
    rw [bytes_nil] at h
    cases h
  | cons d ds =>
    rw [bytes_cons] at h
    have hmem : c.toUInt8 ∈ String.utf8EncodeChar d := by
      have hne : String.utf8EncodeChar d ≠ [] := String.utf8EncodeChar_ne_nil
      obtain ⟨b, w, hw⟩ := List.exists_cons_of_ne_nil hne
      rw [hw] at h ⊢
      rw [(List.cons.inj h).1]
      exact List.mem_cons_self
    have hsmall : c.toUInt8.toNat < 128 := by
      have hc' : c.val.toNat < 128 := of_decide_eq_true hc
      show c.val.toNat % 256 < 128
      omega
    cases hd : isSingle d with
    | false =>
      have hbig : 128 ≤ c.toUInt8.toNat := wide_encode hd _ hmem
      omega
    | true =>
      rw [encode_single hd, List.mem_singleton] at hmem
      exact ⟨ds, by rw [eq_of_toUInt8_eq hc hd hmem]⟩

/-! ### The two readers agree -/

namespace Source

/-- What the byte of a comment leaves behind. -/
def blankByte (b : UInt8) : UInt8 :=
  if b = 10 then b else 32

theorem bytes_spaces (n : Nat) : bytes (List.replicate n ' ') = List.replicate n 32 := by
  induction n with
  | zero => exact bytes_nil
  | succ n ih =>
    have hspace : String.utf8EncodeChar ' ' = [32] := rfl
    rw [List.replicate_succ, bytes_cons, ih, hspace, List.replicate_succ, List.singleton_append]

theorem Wide.map_blankByte {w : List UInt8} (hw : Wide w) :
    w.map blankByte = List.replicate w.length 32 := by
  have hspace : ∀ b ∈ w, blankByte b = 32 := by
    intro b hb
    have hbig : 128 ≤ b.toNat := hw b hb
    have hne : b ≠ 10 := by
      rintro rfl
      exact absurd hbig (by decide)
    rw [blankByte, if_neg hne]
  rw [List.map_congr_left hspace, List.map_const']

theorem bytes_blanked (c : Char) :
    bytes (blanked c) = (String.utf8EncodeChar c).map blankByte := by
  unfold blanked
  split
  · next hc =>
    subst hc
    rw [bytes_cons, bytes_nil]
    rfl
  · next hc =>
    rw [bytes_spaces, ← String.length_utf8EncodeChar]
    cases hs : isSingle c with
    | false => rw [Wide.map_blankByte (wide_encode hs)]
    | true =>
      have hne : c.toUInt8 ≠ 10 := by
        intro hb
        exact hc (eq_of_toUInt8_eq hs (d := '\n') rfl hb)
      rw [encode_single hs, List.map_singleton, blankByte, if_neg hne]
      rfl

theorem bytes_flatMap_blanked (t : Text) :
    bytes (t.flatMap blanked) = (bytes t).map blankByte := by
  induction t with
  | nil => rw [List.flatMap_nil, bytes_nil, List.map_nil]
  | cons c cs ih =>
    rw [List.flatMap_cons, bytes_append, bytes_blanked, ih, bytes_cons, List.map_append]

end Source

/-- The region of a byte inside a region of characters. -/
def Region.inBytes : Region → ByteRegion
  | .code => .code
  | .lineComment => .lineComment
  | .blockComment => .blockComment
  | .literal q => .literal q.toUInt8

def Region.isComment : Region → Bool
  | .lineComment | .blockComment => true
  | .code | .literal _ => false

/-- Literals are opened by quotes, so a region that is reached has no other one. -/
def Region.Proper : Region → Prop
  | .literal q => isQuote q = true
  | .code | .lineComment | .blockComment => True

theorem isSingle_of_isQuote {q : Char} (h : isQuote q = true) : isSingle q = true := by
  rcases isQuote_iff.1 h with rfl | rfl <;> rfl

namespace Source

/-- What the byte behind `b` belongs to, if `b` begins no mark of two bytes. -/
def nextRegion : ByteRegion → UInt8 → ByteRegion
  | .code, b => if b = 34 ∨ b = 39 then .literal b else .code
  | .lineComment, b => if b = 10 then .code else .lineComment
  | .blockComment, _ => .blockComment
  | .literal q, b => if b = q ∨ b = 10 then .code else .literal q

def shownByte : ByteRegion → UInt8 → UInt8
  | .lineComment, b | .blockComment, b => blankByte b
  | .code, b | .literal _, b => b

/-- The two bytes are passed together: a mark that opens or closes a comment, or a byte in a literal
behind a backslash. -/
def Paired : ByteRegion → UInt8 → UInt8 → Prop
  | .code, b, d => b = 47 ∧ (d = 47 ∨ d = 42)
  | .lineComment, _, _ => False
  | .blockComment, b, d => b = 42 ∧ d = 47
  | .literal _, b, _ => b = 92

theorem maskBytesFrom_cons {r : ByteRegion} {b : UInt8} {bs : List UInt8}
    (h : ∀ d ds, bs = d :: ds → ¬ Paired r b d) :
    maskBytesFrom r (b :: bs) = shownByte r b :: maskBytesFrom (nextRegion r b) bs := by
  cases r with
  | code =>
    rw [maskBytesFrom]
    · rfl
    · exact fun ds hb hbs => h 47 ds hbs ⟨hb, .inl rfl⟩
    · exact fun ds hb hbs => h 42 ds hbs ⟨hb, .inr rfl⟩
  | lineComment =>
    rw [maskBytesFrom]
    rfl
  | blockComment =>
    rw [maskBytesFrom]
    · rfl
    · exact fun ds hb hbs => h 47 ds hbs ⟨hb, rfl⟩
  | literal q =>
    rw [maskBytesFrom]
    · rfl
    · exact fun d ds hb hbs => h d ds hbs hb

theorem maskBytesFrom_lineMark (bs : List UInt8) :
    maskBytesFrom .code (47 :: 47 :: bs) = 32 :: 32 :: maskBytesFrom .lineComment bs := rfl

theorem maskBytesFrom_blockMark (bs : List UInt8) :
    maskBytesFrom .code (47 :: 42 :: bs) = 32 :: 32 :: maskBytesFrom .blockComment bs := rfl

theorem maskBytesFrom_blockEnd (bs : List UInt8) :
    maskBytesFrom .blockComment (42 :: 47 :: bs) = 32 :: 32 :: maskBytesFrom .code bs := rfl

theorem maskBytesFrom_backslash (q b : UInt8) (bs : List UInt8) :
    maskBytesFrom (.literal q) (92 :: b :: bs) = 92 :: b :: maskBytesFrom (.literal q) bs := rfl

/-- Bytes of longer characters leave the reader where it is. -/
theorem maskBytesFrom_wide {r : Region} (hr : r.Proper) {w : List UInt8} (hw : Wide w)
    (bs : List UInt8) :
    maskBytesFrom r.inBytes (w ++ bs) =
      (if r.isComment then w.map blankByte else w) ++ maskBytesFrom r.inBytes bs := by
  induction w with
  | nil => simp
  | cons b w ih =>
    have htail : Wide w := fun d hd => hw d (List.mem_cons_of_mem b hd)
    have hbig : 128 ≤ b.toNat := hw b List.mem_cons_self
    have hne : ∀ {d : UInt8}, d.toNat < 128 → b ≠ d := by
      rintro d hd rfl
      omega
    have h34 : b ≠ 34 := hne (by decide)
    have h39 : b ≠ 39 := hne (by decide)
    have h10 : b ≠ 10 := hne (by decide)
    have hnext : nextRegion r.inBytes b = r.inBytes := by
      cases r with
      | code => exact if_neg (not_or.2 ⟨h34, h39⟩)
      | lineComment => exact if_neg h10
      | blockComment => rfl
      | literal q =>
        refine if_neg (not_or.2 ⟨?_, h10⟩)
        rcases isQuote_iff.1 hr with rfl | rfl
        · exact h34
        · exact h39
    have hplain : ∀ d ds, w ++ bs = d :: ds → ¬ Paired r.inBytes b d := by
      intro d ds _ hd
      cases r with
      | code => exact hne (by decide) hd.1
      | lineComment => exact hd
      | blockComment => exact hne (by decide) hd.1
      | literal q => exact hne (by decide) hd
    rw [List.cons_append, maskBytesFrom_cons hplain, hnext, ih htail]
    cases r <;> rfl

theorem encode_slash : String.utf8EncodeChar '/' = [47] := rfl

theorem encode_star : String.utf8EncodeChar '*' = [42] := rfl

theorem encode_space : String.utf8EncodeChar ' ' = [32] := rfl

theorem encode_backslash : String.utf8EncodeChar '\\' = [92] := rfl

theorem isQuote_iff_toUInt8 {c : Char} (hc : isSingle c = true) :
    isQuote c = true ↔ c.toUInt8 = 34 ∨ c.toUInt8 = 39 := by
  have hdouble : c.toUInt8 = 34 ↔ c = '"' := toUInt8_eq_iff (d := '"') hc rfl
  have hsimple : c.toUInt8 = 39 ↔ c = '\'' := toUInt8_eq_iff (d := '\'') hc rfl
  rw [hdouble, hsimple]
  simp [isQuote]

/-! ### One character in each region

A mark in the bytes is one in the characters. -/

theorem maskBytesFrom_code {c : Char} {cs : Text} (hline : ∀ ds, c = '/' → cs = '/' :: ds → False)
    (hblock : ∀ ds, c = '/' → cs = '*' :: ds → False) :
    maskBytesFrom .code (bytes (c :: cs)) = String.utf8EncodeChar c ++
      maskBytesFrom (if isQuote c then Region.literal c else .code).inBytes (bytes cs) := by
  cases hc : isSingle c with
  | false =>
    have hq : isQuote c ≠ true := fun h => by simp [isSingle_of_isQuote h] at hc
    rw [bytes_cons, if_neg hq]
    exact maskBytesFrom_wide (r := .code) trivial (wide_encode hc) (bytes cs)
  | true =>
    have hregion : (if isQuote c then Region.literal c else .code).inBytes =
        if c.toUInt8 = 34 ∨ c.toUInt8 = 39 then ByteRegion.literal c.toUInt8 else .code := by
      by_cases hq : isQuote c = true
      · rw [if_pos hq, if_pos ((isQuote_iff_toUInt8 hc).1 hq)]
        rfl
      · rw [if_neg hq, if_neg (mt (isQuote_iff_toUInt8 hc).2 hq)]
        rfl
    rw [bytes_cons, encode_single hc, List.singleton_append, hregion]
    refine maskBytesFrom_cons ?_
    rintro b bs hrest ⟨hslash, rfl | rfl⟩
    · obtain rfl : c = '/' := eq_of_toUInt8_eq hc (d := '/') rfl hslash
      obtain ⟨ds, rfl⟩ := head_of_bytes (c := '/') rfl hrest
      exact hline ds rfl rfl
    · obtain rfl : c = '/' := eq_of_toUInt8_eq hc (d := '/') rfl hslash
      obtain ⟨ds, rfl⟩ := head_of_bytes (c := '*') rfl hrest
      exact hblock ds rfl rfl

theorem maskBytesFrom_lineComment (c : Char) (cs : Text) :
    maskBytesFrom .lineComment (bytes (c :: cs)) = bytes (blanked c) ++
      maskBytesFrom (if c = '\n' then Region.code else .lineComment).inBytes (bytes cs) := by
  rw [bytes_cons, bytes_blanked]
  cases hc : isSingle c with
  | false =>
    have hne : c ≠ '\n' := by
      rintro rfl
      exact absurd hc (by decide)
    rw [if_neg hne]
    exact maskBytesFrom_wide (r := .lineComment) trivial (wide_encode hc) (bytes cs)
  | true =>
    have hend : c.toUInt8 = 10 ↔ c = '\n' := toUInt8_eq_iff (d := '\n') hc rfl
    have hregion : (if c = '\n' then Region.code else .lineComment).inBytes =
        if c.toUInt8 = 10 then ByteRegion.code else .lineComment := by
      simp only [hend]
      split <;> rfl
    rw [encode_single hc, List.singleton_append, hregion]
    exact maskBytesFrom_cons fun _ _ _ h => h

theorem maskBytesFrom_blockComment {c : Char} {cs : Text}
    (hclose : ∀ ds, c = '*' → cs = '/' :: ds → False) :
    maskBytesFrom .blockComment (bytes (c :: cs)) =
      bytes (blanked c) ++ maskBytesFrom .blockComment (bytes cs) := by
  rw [bytes_cons, bytes_blanked]
  cases hc : isSingle c with
  | false => exact maskBytesFrom_wide (r := .blockComment) trivial (wide_encode hc) (bytes cs)
  | true =>
    rw [encode_single hc, List.singleton_append]
    refine maskBytesFrom_cons ?_
    rintro b bs hrest ⟨hstar, rfl⟩
    obtain rfl : c = '*' := eq_of_toUInt8_eq hc (d := '*') rfl hstar
    obtain ⟨ds, rfl⟩ := head_of_bytes (c := '/') rfl hrest
    exact hclose ds rfl rfl

/-- The backslash protects the first byte; the reader passes the other ones of the character. -/
theorem maskBytesFrom_escape {q : Char} (hq : isQuote q = true) (c : Char) (cs : Text) :
    maskBytesFrom (.literal q.toUInt8) (bytes ('\\' :: c :: cs)) =
      92 :: (String.utf8EncodeChar c ++ maskBytesFrom (.literal q.toUInt8) (bytes cs)) := by
  rw [bytes_cons, bytes_cons, encode_backslash, List.singleton_append]
  cases hc : isSingle c with
  | true =>
    rw [encode_single hc, List.singleton_append, List.singleton_append, maskBytesFrom_backslash]
  | false =>
    have hwide : Wide (String.utf8EncodeChar c) := wide_encode hc
    obtain ⟨b, w, hw⟩ := List.exists_cons_of_ne_nil (String.utf8EncodeChar_ne_nil (c := c))
    rw [hw] at hwide ⊢
    have htail : Wide w := fun d hd => hwide d (List.mem_cons_of_mem b hd)
    have hrest := maskBytesFrom_wide (r := .literal q) hq htail (bytes cs)
    rw [List.cons_append, maskBytesFrom_backslash, List.cons_append]
    exact congrArg (92 :: b :: ·) hrest

theorem maskBytesFrom_literal {q c : Char} {cs : Text} (hq : isQuote q = true)
    (hesc : ∀ d ds, c = '\\' → cs = d :: ds → False) :
    maskBytesFrom (.literal q.toUInt8) (bytes (c :: cs)) = String.utf8EncodeChar c ++
      maskBytesFrom (if c = q ∨ c = '\n' then Region.code else .literal q).inBytes (bytes cs) := by
  rw [bytes_cons]
  cases hc : isSingle c with
  | false =>
    have hend : ¬ (c = q ∨ c = '\n') := by
      rintro (rfl | rfl)
      · simp [isSingle_of_isQuote hq] at hc
      · exact absurd hc (by decide)
    rw [if_neg hend]
    exact maskBytesFrom_wide (r := .literal q) hq (wide_encode hc) (bytes cs)
  | true =>
    have hquote : c.toUInt8 = q.toUInt8 ↔ c = q := toUInt8_eq_iff hc (isSingle_of_isQuote hq)
    have hfeed : c.toUInt8 = 10 ↔ c = '\n' := toUInt8_eq_iff (d := '\n') hc rfl
    have hregion : (if c = q ∨ c = '\n' then Region.code else .literal q).inBytes =
        if c.toUInt8 = q.toUInt8 ∨ c.toUInt8 = 10 then ByteRegion.code
        else .literal q.toUInt8 := by
      simp only [hquote, hfeed]
      split <;> rfl
    rw [encode_single hc, List.singleton_append, hregion]
    refine maskBytesFrom_cons ?_
    intro b bs hrest hback
    obtain rfl : c = '\\' := eq_of_toUInt8_eq hc (d := '\\') rfl hback
    cases cs with
    | nil => cases (bytes_nil.symm.trans hrest)
    | cons d ds => exact hesc d ds rfl rfl

/-- The reader of bytes leaves the bytes of the masked text. -/
theorem maskBytesFrom_bytes {r : Region} (hr : r.Proper) (t : Text) :
    maskBytesFrom r.inBytes (bytes t) = bytes (maskFrom r t) := by
  fun_induction maskFrom r t with
  | case1 r => cases r <;> rfl
  | case2 cs ih =>
    have hline : maskBytesFrom .lineComment (bytes cs) = bytes (maskFrom .lineComment cs) := ih trivial
    simp only [bytes_cons, encode_slash, encode_space, List.singleton_append, Region.inBytes,
      maskBytesFrom_lineMark, hline]
  | case3 cs ih =>
    have hblock : maskBytesFrom .blockComment (bytes cs) = bytes (maskFrom .blockComment cs) :=
      ih trivial
    simp only [bytes_cons, encode_slash, encode_star, encode_space, List.singleton_append,
      Region.inBytes, maskBytesFrom_blockMark, hblock]
  | case4 c cs hline hblock ih =>
    have hproper : (if isQuote c then Region.literal c else .code).Proper := by
      split
      · next hq => exact hq
      · trivial
    rw [Region.inBytes, maskBytesFrom_code hline hblock, ih hproper, bytes_cons]
  | case5 c cs ih =>
    have hproper : (if c = '\n' then Region.code else .lineComment).Proper := by
      split <;> trivial
    rw [Region.inBytes, maskBytesFrom_lineComment, ih hproper, bytes_append]
  | case6 cs ih =>
    have hcode : maskBytesFrom .code (bytes cs) = bytes (maskFrom .code cs) := ih trivial
    simp only [bytes_cons, encode_slash, encode_star, encode_space, List.singleton_append,
      Region.inBytes, maskBytesFrom_blockEnd, hcode]
  | case7 c cs hclose ih =>
    have hblock : maskBytesFrom .blockComment (bytes cs) = bytes (maskFrom .blockComment cs) :=
      ih trivial
    rw [Region.inBytes, maskBytesFrom_blockComment hclose, hblock, bytes_append]
  | case8 q c cs ih =>
    have hliteral : maskBytesFrom (.literal q.toUInt8) (bytes cs) =
        bytes (maskFrom (.literal q) cs) := ih hr
    rw [Region.inBytes, maskBytesFrom_escape hr, hliteral, bytes_cons, bytes_cons, encode_backslash,
      List.singleton_append]
  | case9 q c cs hesc ih =>
    have hproper : (if c = q ∨ c = '\n' then Region.code else .literal q).Proper := by
      split
      · trivial
      · exact hr
    rw [Region.inBytes, maskBytesFrom_literal hr hesc, ih hproper, bytes_cons]

theorem maskBytes_toBytes (t : Text) : maskBytes t.toBytes = (mask t).toBytes := by
  have hbytes : maskBytesFrom .code (bytes t) = bytes (mask t) :=
    maskBytesFrom_bytes (r := .code) trivial t
  rw [maskBytes, ← toByteArray_bytes (mask t), ← hbytes]
  rfl

end Source

/-! ### The bytes of comments -/

namespace Lexeme

/-- Whether a byte of the text of the lexemes belongs to a comment. -/
def InComment (ls : List Lexeme) (i : Nat) : Prop :=
  ∃ before l behind, ls = before ++ l :: behind ∧ l.isComment = true ∧
    byteSize (textOf before) ≤ i ∧ i < byteSize (textOf before) + byteSize l.text

theorem inComment_cons {l : Lexeme} {ls : List Lexeme} {i : Nat} :
    InComment (l :: ls) i ↔ (l.isComment = true ∧ i < byteSize l.text) ∨
      (byteSize l.text ≤ i ∧ InComment ls (i - byteSize l.text)) := by
  constructor
  · rintro ⟨before, m, behind, hls, hm, hle, hlt⟩
    cases before with
    | nil =>
      obtain ⟨rfl, -⟩ := List.cons.inj hls
      exact .inl ⟨hm, by simpa using hlt⟩
    | cons k before =>
      obtain ⟨rfl, rfl⟩ := List.cons.inj hls
      rw [textOf_cons, byteSize_append] at hle hlt
      exact .inr ⟨by omega, before, m, behind, rfl, hm, by omega, by omega⟩
  · rintro (⟨hl, hlt⟩ | ⟨hle, before, m, behind, rfl, hm, hstart, hstop⟩)
    · exact ⟨[], l, ls, rfl, hl, Nat.zero_le i, by simpa using hlt⟩
    · refine ⟨l :: before, m, behind, rfl, hm, ?_, ?_⟩ <;> rw [textOf_cons, byteSize_append] <;> omega

theorem bytes_masked (l : Lexeme) :
    bytes l.masked = if l.isComment then (bytes l.text).map Source.blankByte else bytes l.text := by
  unfold masked
  split
  · exact Source.bytes_flatMap_blanked l.text
  · rfl

theorem getElem?_bytes_masked {ls : List Lexeme} {i : Nat} {b : UInt8}
    (h : (bytes (textOf ls))[i]? = some b) :
    (InComment ls i → (bytes (ls.flatMap masked))[i]? = some (Source.blankByte b)) ∧
      (¬ InComment ls i → (bytes (ls.flatMap masked))[i]? = some b) := by
  induction ls generalizing i with
  | nil => simp at h
  | cons l ls ih =>
    have hlen : (bytes l.masked).length = byteSize l.text := by
      rw [bytes_masked]
      split
      · rw [List.length_map, length_bytes]
      · exact length_bytes l.text
    rw [textOf_cons, bytes_append] at h
    rw [List.flatMap_cons, bytes_append, inComment_cons]
    by_cases hi : i < byteSize l.text
    · rw [List.getElem?_append_left (by rw [length_bytes]; exact hi)] at h
      rw [List.getElem?_append_left (by rw [hlen]; exact hi), bytes_masked]
      cases hl : l.isComment with
      | true => simp [hi, h]
      | false => simp [h, Nat.not_le.2 hi]
    · rw [List.getElem?_append_right (by rw [length_bytes]; omega), length_bytes] at h
      rw [List.getElem?_append_right (by rw [hlen]; omega), hlen]
      simpa [hi, Nat.le_of_not_lt hi] using ih h

end Lexeme

/-- Masking is reading by the lexical grammar: the text has exactly one reading, the result has as
many bytes, exactly the bytes of the comments other than line feeds become spaces, and what the
reader of bytes leaves decodes, whatever is done with bytes that do not. -/
theorem Source.mask_isLexical (t : Text) :
    ∃ ls, Lexeme.Lexed ls ∧ Lexeme.textOf ls = t ∧
      (∀ ls', Lexeme.Lexed ls' → Lexeme.textOf ls' = t → ls' = ls) ∧
      Source.maskBytes t.toBytes = (Source.mask t).toBytes ∧
      (Source.maskBytes t.toBytes).size = t.toBytes.size ∧
      (∀ i b, (bytes t)[i]? = some b →
        (Lexeme.InComment ls i → b ≠ 10 → (bytes (Source.mask t))[i]? = some 32) ∧
        (¬ Lexeme.InComment ls i ∨ b = 10 → (bytes (Source.mask t))[i]? = some b)) ∧
      ofBytes? (Source.maskBytes t.toBytes) = some (Source.mask t) ∧
      ∀ lossy, Source.maskDecoded lossy t = Source.mask t := by
  obtain ⟨ls, hls, rfl⟩ := Lexeme.exists_lexed t
  have hdecodes : ofBytes? (Source.maskBytes (Lexeme.textOf ls).toBytes) =
      some (Source.mask (Lexeme.textOf ls)) := by
    rw [Source.maskBytes_toBytes, ofBytes?_toBytes]
  have hsize : ∀ s : Text, s.toBytes.size = byteSize s := by
    intro s
    rw [← length_bytes]
    rfl
  refine ⟨ls, hls, rfl, fun ls' hls' h => hls'.unique hls h, Source.maskBytes_toBytes _, ?_, ?_,
    hdecodes, fun lossy => ?_⟩
  · rw [Source.maskBytes_toBytes, hsize, hsize, Source.byteSize_mask]
  · intro i b hb
    obtain ⟨hin, hout⟩ := Lexeme.getElem?_bytes_masked hb
    rw [hls.mask_textOf]
    constructor
    · intro hcomment hne
      rw [hin hcomment, Source.blankByte, if_neg hne]
    · rintro (hcode | rfl)
      · exact hout hcode
      · by_cases hcomment : Lexeme.InComment ls i
        · exact hin hcomment
        · exact hout hcomment
  · rw [Source.maskDecoded, hdecodes, Option.getD_some]

end FlatSol
