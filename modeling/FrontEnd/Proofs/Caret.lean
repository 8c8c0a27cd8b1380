import FrontEnd.Proofs.Diagnosis
import FrontEnd.Report

/-!
The caret of a report. A report ends with three lines whose bars stand below each other: an empty
one, the line that is blamed without its indentation, and one that ends with a caret. A column
counts bytes and the caret stands behind so many characters, so it is below the character that is
blamed, but moved to the right by the bytes in front of it that begin no character.
-/

set_option autoImplicit false

namespace FrontEnd

/-! ### Bytes of a text -/

namespace Text

/-- The bytes of the UTF-8 form of a text. -/
def utf8 (cs : List Char) : List UInt8 := cs.flatMap String.utf8EncodeChar

/-- A byte that goes on with a character. -/
def isContinuation (b : UInt8) : Bool := 128 ≤ b.toNat && b.toNat < 192

def isAscii (b : UInt8) : Bool := b.toNat < 128

@[simp] theorem utf8_append (cs ds : List Char) : utf8 (cs ++ ds) = utf8 cs ++ utf8 ds :=
  List.flatMap_append

@[simp] theorem length_utf8 (cs : List Char) : (utf8 cs).length = bytes cs := by
  induction cs with
  | nil => rfl
  | cons c cs ih =>
    rw [bytes_cons, ← ih, ← String.length_utf8EncodeChar c, ← List.length_append]
    rfl

/-- All bytes of a character but the first go on with it. -/
theorem countP_utf8EncodeChar (c : Char) :
    (String.utf8EncodeChar c).countP isContinuation + 1 = c.utf8Size := by
  have hmore (n : Nat) (bs : List UInt8) :
      (UInt8.ofNat (n % 64 + 128) :: bs).countP isContinuation
        = bs.countP isContinuation + 1 := by
    refine List.countP_cons_of_pos ?_
    simp only [isContinuation, UInt8.toNat_ofNat', Bool.and_eq_true, decide_eq_true_eq]
    omega
  have hfirst {n : Nat} (hn : n % 256 < 128 ∨ 192 ≤ n % 256) (bs : List UInt8) :
      (UInt8.ofNat n :: bs).countP isContinuation = bs.countP isContinuation := by
    refine List.countP_cons_of_neg ?_
    simp only [isContinuation, UInt8.toNat_ofNat', Bool.and_eq_true, decide_eq_true_eq]
    omega
  rw [← String.length_utf8EncodeChar]
  fun_cases String.utf8EncodeChar c with
  | case1 v hv => rw [hfirst (by omega), List.countP_nil, List.length_singleton]
  | case2 v _ hv => rw [hfirst (by omega), hmore, List.countP_nil]; rfl
  | case3 v _ _ hv => rw [hfirst (by omega), hmore, hmore, List.countP_nil]; rfl
  | case4 v _ _ hv => rw [hfirst (by omega), hmore, hmore, hmore, List.countP_nil]; rfl

theorem length_add_countP (cs : List Char) :
    cs.length + (utf8 cs).countP isContinuation = bytes cs := by
  induction cs with
  | nil => rfl
  | cons c cs ih =>
    have hc := countP_utf8EncodeChar c
    have hcount : (utf8 (c :: cs)).countP isContinuation
        = (String.utf8EncodeChar c).countP isContinuation + (utf8 cs).countP isContinuation :=
      List.countP_append
    rw [bytes_cons, List.length_cons, hcount]
    omega

theorem countP_isContinuation_of_isAscii {bs : List UInt8} (h : ∀ b ∈ bs, isAscii b) :
    bs.countP isContinuation = 0 := by
  refine List.countP_eq_zero.2 fun b hb => ?_
  have hlt := h b hb
  simp only [isAscii, isContinuation, decide_eq_true_eq, Bool.and_eq_true] at hlt ⊢
  omega

/-- A text from which characters are trimmed at the end. -/
theorem exists_trimmed (p : Char → Bool) (cs : List Char) :
    ∃ blank, cs = (cs.reverse.dropWhile p).reverse ++ blank ∧ ∀ c ∈ blank, p c := by
  refine ⟨(cs.reverse.takeWhile p).reverse, ?_, fun c hc => ?_⟩
  · rw [← List.reverse_append, List.takeWhile_append_dropWhile, List.reverse_reverse]
  · exact List.all_eq_true.1 List.all_takeWhile c (List.mem_reverse.1 hc)

end Text

/-! ### The lines of an excerpt -/

namespace Report

open Text (bytes utf8 isContinuation isAscii)

/-- The last three lines of a report. The middle one has `lead` in front of the text that it
shows. -/
structure Lines where
  top : List Char
  lead : List Char
  shown : List Char
  bottom : List Char

namespace Lines

def text (l : Lines) : List Char :=
  l.top ++ '\n' :: (l.lead ++ l.shown ++ '\n' :: (l.bottom ++ ['\n']))

/-- Each line is a single one, and their first bars stand below each other. -/
structure Framed (l : Lines) : Prop where
  single : '\n' ∉ l.top ∧ '\n' ∉ l.lead ++ l.shown ∧ '\n' ∉ l.bottom
  bar : '|' ∈ l.top ∧ '|' ∈ l.lead ∧ '|' ∈ l.bottom
  aligned : (l.lead ++ l.shown).idxOf '|' = l.top.idxOf '|' ∧
    l.bottom.idxOf '|' = l.top.idxOf '|'

/-- The last line ends with a caret, behind as many characters as the lead of the line above and
the first `n` characters of the text that it shows. -/
def CaretAt (l : Lines) (n : Nat) : Prop :=
  l.bottom.getLast? = some '^' ∧ l.bottom.length = l.lead.length + n + 1

end Lines

/-- The lines for a text that is shown behind the digits of the number of its line, with a pointer of
a width. -/
def lines (digits shown : List Char) (width : Nat) : Lines :=
  let margin := List.replicate (digits.length + 1) ' '
  ⟨margin ++ ['|'], digits ++ [' ', '|', ' '], shown,
    margin ++ ['|', ' '] ++ List.replicate (width - 1) '-' ++ ['^']⟩

theorem lines_framed {digits shown : List Char} (hbar : '|' ∉ digits) (hd : '\n' ∉ digits)
    (hs : '\n' ∉ shown) (width : Nat) : (lines digits shown width).Framed := by
  have hmargin : '|' ∉ List.replicate (digits.length + 1) ' ' := fun h => by
    cases List.eq_of_mem_replicate h
  constructor
  · simp [lines, hd, hs]
  · simp [lines]
  · simp [lines, List.append_assoc, List.idxOf_append_of_notMem hbar,
      List.idxOf_append_of_notMem hmargin]

theorem lines_caretAt (digits shown : List Char) (width : Nat) :
    (lines digits shown width).CaretAt (width - 1) := by
  constructor
  · exact List.getLast?_concat
  · simp [lines]
    omega

/-- The number of spaces and tabs at the front. -/
def indent (text : List Char) : Nat := (text.takeWhile isIndent).length

theorem dropWhile_isIndent (text : List Char) :
    text.dropWhile isIndent = text.drop (indent text) := by
  have h : (text.takeWhile isIndent ++ text.dropWhile isIndent).drop (indent text)
      = text.dropWhile isIndent := List.drop_left
  rw [← h, List.takeWhile_append_dropWhile]

/-- The lines that are shown for a place whose line reads `text`. -/
def shownLines (place : Place) (text : List Char) : Lines :=
  lines (toString place.line).toList (Text.trimEnd (text.drop (indent text)))
    (max (place.column - indent text) 1)

theorem excerpt_eq (place : Place) (text : List Char) :
    (excerpt place (String.ofList text)).toList = (shownLines place text).text := by
  rw [shownLines, ← dropWhile_isIndent]
  unfold excerpt
  generalize toString place.line = number
  simp [lines, Lines.text, bar, pointer, indent, String.length_toList]

theorem not_mem_digits {c : Char} (hc : c.isDigit = false) (n : Nat) :
    c ∉ (toString n).toList := by
  intro h
  rw [Nat.toString_eq_repr, Nat.toList_repr] at h
  rw [Nat.isDigit_of_mem_toDigits (by decide) (by decide) h] at hc
  cases hc

/-! ### Below the character that is blamed -/

/-- The bytes of a line between its indentation and a column. -/
def between (line : List Char) (indent column : Nat) : List UInt8 :=
  ((utf8 line).take (column - 1)).drop indent

theorem bytes_of_isIndent {cs : List Char} (h : ∀ c ∈ cs, isIndent c) : bytes cs = cs.length := by
  induction cs with
  | nil => rfl
  | cons c cs ih =>
    obtain ⟨hc, hcs⟩ := List.forall_mem_cons.1 h
    have hsize : c.utf8Size = 1 := by
      simp only [isIndent, Bool.or_eq_true, decide_eq_true_eq] at hc
      obtain rfl | rfl := hc <;> rfl
    rw [Text.bytes_cons, List.length_cons, ih hcs, hsize, Nat.add_comm]

theorem indent_le_length (text : List Char) : indent text ≤ text.length :=
  List.Sublist.length_le (List.takeWhile_sublist _)

theorem isIndent_of_mem_take {text more : List Char} {c : Char}
    (h : c ∈ (text ++ more).take (indent text)) : isIndent c := by
  have hp : text.takeWhile isIndent <+: text ++ more :=
    (List.takeWhile_prefix _).trans (List.prefix_append _ _)
  rw [indent, ← List.prefix_iff_eq_take.1 hp] at h
  exact List.mem_takeWhile_imp h

section

variable {front back : List Char} {k : Nat}

/-- Indentation that takes no more bytes than stand in front of a place ends in front of it. -/
theorem le_length_of_isIndent (hi : ∀ c ∈ (front ++ back).take k, isIndent c)
    (hk : k ≤ bytes front) : k ≤ front.length := by
  refine Nat.le_of_not_lt fun hlt => ?_
  have hp : front <+: (front ++ back).take k :=
    List.prefix_take_iff.2 ⟨List.prefix_append _ _, Nat.le_of_lt hlt⟩
  rw [bytes_of_isIndent fun c hc => hi c (hp.subset hc)] at hk
  omega

/-- Between the indentation and a place stand the characters that the caret is moved over, and as
many bytes more as begin no character. -/
theorem length_add_between (hi : ∀ c ∈ (front ++ back).take k, isIndent c)
    (hk : k ≤ bytes front) :
    front.length - k + (between (front ++ back) k (bytes front + 1)).countP isContinuation
      = bytes front - k := by
  have hle := le_length_of_isIndent hi hk
  have hindent : bytes (front.take k) = k := by
    rw [List.take_append_of_le_length hle] at hi
    rw [bytes_of_isIndent hi, List.length_take, Nat.min_eq_left hle]
  have hsplit := List.take_append_drop k front
  have hbetween : between (front ++ back) k (bytes front + 1) = utf8 (front.drop k) := by
    rw [between, Nat.add_sub_cancel, Text.utf8_append, List.take_left' (Text.length_utf8 front)]
    nth_rewrite 1 [← hsplit]
    rw [Text.utf8_append, List.drop_left' (by rw [Text.length_utf8, hindent])]
  have hcount := Text.length_add_countP (front.drop k)
  have hbytes := congrArg bytes hsplit
  rw [Text.bytes_append, hindent] at hbytes
  rw [List.length_drop, ← hbetween] at hcount
  omega

theorem getElem?_drop_append (hk : k ≤ front.length) :
    ((front ++ back).drop k)[front.length - k]? = back.head? := by
  rw [List.getElem?_drop, Nat.add_sub_cancel' hk, List.getElem?_append_right (Nat.le_refl _),
    Nat.sub_self, List.head?_eq_getElem?]

end

/-- What a report shows of a diagnostic that blames the byte behind the start `front` of the line
`front ++ back`. The line ends with carriage returns that `text` is without. -/
structure Shows (source : Source) (d : Diagnostic) (text front back : List Char) (l : Lines) :
    Prop where
  line : Source.lineAfter (d.position.line - 1) source.text.toList = some (front ++ back)
  trimmed : Source.line? source.text d.position.line = some (String.ofList text) ∧
    ∃ returns, front ++ back = text ++ returns ∧ ∀ c ∈ returns, c = '\r'
  column : d.position.column = bytes front + 1
  report : (d.report source.text).toList = (heading d).toList ++ l.text
  framed : l.Framed
  lead : l.lead = (toString d.position.line).toList ++ [' ', '|', ' ']
  /-- The line is shown without its indentation and the white space at its end. -/
  shown : ∃ blank, (front ++ back).drop (indent text) = l.shown ++ blank ∧
    ∀ c ∈ blank, Text.isWhiteSpace c
  caret : indent text < d.position.column → l.CaretAt (d.position.column - 1 - indent text)
  /-- Behind the indentation, the character that is blamed stands as many characters further on as
  there are between the two, and the caret is moved to the right by the bytes between them that
  begin no character. -/
  below : indent text < d.position.column →
    ((front ++ back).drop (indent text))[front.length - indent text]? = back.head? ∧
      l.CaretAt (front.length - indent text
        + (between (front ++ back) (indent text) d.position.column).countP isContinuation)
  ascii : indent text < d.position.column →
    (∀ b ∈ between (front ++ back) (indent text) d.position.column, isAscii b) →
    l.CaretAt (front.length - indent text)
  /-- For a column inside of the indentation, the caret is where the text begins. -/
  indented : d.position.column ≤ indent text → l.CaretAt 0

theorem shows_of_trimmed {source : Source} {d : Diagnostic} {text returns front back : List Char}
    (hl : Source.lineAfter (d.position.line - 1) source.text.toList = some (front ++ back))
    (hn : '\n' ∉ front ++ back) (hc : d.position.column = bytes front + 1)
    (ht : Source.line? source.text d.position.line = some (String.ofList text))
    (hr : front ++ back = text ++ returns) (hreturns : ∀ c ∈ returns, c = '\r') :
    Shows source d text front back (shownLines d.position.toPlace text) := by
  obtain ⟨blank, htrim, hblank⟩ := Text.exists_trimmed Text.isWhiteSpace (text.drop (indent text))
  have hshown : (front ++ back).drop (indent text)
      = Text.trimEnd (text.drop (indent text)) ++ (blank ++ returns) := by
    rw [hr, List.drop_append_of_le_length (indent_le_length text), ← List.append_assoc,
      Text.trimEnd, ← htrim]
  have hcaret := lines_caretAt (toString d.position.line).toList
    (Text.trimEnd (text.drop (indent text))) (max (d.position.column - indent text) 1)
  have hi : ∀ c ∈ (front ++ back).take (indent text), isIndent c :=
    fun c h => isIndent_of_mem_take (hr ▸ h)
  have hwidth (hk : indent text < d.position.column) :
      max (d.position.column - indent text) 1 - 1 = front.length - indent text
        + (between (front ++ back) (indent text) d.position.column).countP isContinuation := by
    rw [hc, length_add_between hi (by omega)]
    omega
  exact {
    line := hl
    trimmed := ⟨ht, returns, hr, hreturns⟩
    column := hc
    report := by
      rw [Diagnostic.report, ht]
      simp only [String.toList_append, excerpt_eq]
    framed := by
      refine lines_framed (not_mem_digits (by decide) _) (not_mem_digits (by decide) _) ?_ _
      intro h
      refine hn (List.mem_of_mem_drop (i := indent text) ?_)
      rw [hshown]
      exact List.mem_append_left _ h
    lead := rfl
    shown := by
      refine ⟨_, hshown, fun c h => ?_⟩
      obtain h | h := List.mem_append.1 h
      · exact hblank c h
      · rw [hreturns c h]
        rfl
    caret := fun hk => by
      rwa [show max (d.position.column - indent text) 1 - 1
        = d.position.column - 1 - indent text by omega] at hcaret
    below := fun hk =>
      ⟨getElem?_drop_append (le_length_of_isIndent hi (by omega)), hwidth hk ▸ hcaret⟩
    ascii := fun hk ha => by
      have hw := hwidth hk
      rw [Text.countP_isContinuation_of_isAscii ha, Nat.add_zero] at hw
      exact hw ▸ hcaret
    indented := fun hk => by
      rwa [show max (d.position.column - indent text) 1 - 1 = 0 by omega] at hcaret }

theorem exists_shows {source : Source} {d : Diagnostic} {before after : List Char}
    (ht : source.text.toList = before ++ after) (hp : d.position.toPlace = .behind before) :
    ∃ text front back l, Shows source d text front back l := by
  have hl : d.position.line = before.count '\n' + 1 := by
    rw [hp]
    exact Nat.add_comm _ _
  have hc : d.position.column = bytes (Text.lastLine before) + 1 := by
    rw [hp]
    exact Nat.add_comm _ _
  have hafter : Source.lineAfter (before.count '\n') source.text.toList
      = some (Text.lastLine before ++ after.takeWhile (· ≠ '\n')) := by
    rw [ht, Source.lineAfter_count]
  have hn : '\n' ∉ Text.lastLine before ++ after.takeWhile (· ≠ '\n') := by
    simp only [List.mem_append, Text.lastLine, List.mem_reverse]
    rintro (h | h) <;> simpa using List.mem_takeWhile_imp h
  obtain ⟨returns, hr, hreturns⟩ := Text.exists_trimmed (· = '\r')
    (Text.lastLine before ++ after.takeWhile (· ≠ '\n'))
  refine ⟨_, _, _, _, shows_of_trimmed ?_ hn hc ?_ hr fun c h => by simpa using hreturns c h⟩
  · rwa [hl, Nat.add_sub_cancel]
  · rw [hl, Source.line?, hafter]
    rfl

end Report

/-! ### The reports of an analysis -/

namespace Analysis

theorem truthful_of_mem {source : Source} {d : Diagnostic}
    (h : d ∈ (ofSource source).diagnostics) : d.Truthful source :=
  (List.mem_append.1 h).elim Scan.truthful_of_mem_diagnostics truthful_of_mem_session

/-- The report of each diagnostic of an analysis shows the line that is blamed, with the caret below
the byte that is blamed, but for the bytes that begin no character. -/
theorem shows_report {source : Source} {d : Diagnostic}
    (h : d ∈ (ofSource source).diagnostics) :
    ∃ text front back l, Report.Shows source d text front back l := by
  obtain ⟨before, after, ht, -, hp, -⟩ := (truthful_of_mem h).holds
  exact Report.exists_shows ht hp

/-- Behind an indentation and a text of four bytes in three characters, the caret is one character
to the right of the one that is blamed. -/
theorem shows_report_string :
    ⟨.unknownOperator '@', ⟨⟨2, 8⟩, "t"⟩⟩ ∈ (ofSource ⟨"t", "\n  \"é\" @"⟩).diagnostics ∧
      ∃ text front back l, Report.Shows ⟨"t", "\n  \"é\" @"⟩
        ⟨.unknownOperator '@', ⟨⟨2, 8⟩, "t"⟩⟩ text front back l := by
  have h : ⟨.unknownOperator '@', ⟨⟨2, 8⟩, "t"⟩⟩
      ∈ (ofSource ⟨"t", "\n  \"é\" @"⟩).diagnostics := by decide +kernel
  exact ⟨h, shows_report h⟩

end Analysis

end FrontEnd
