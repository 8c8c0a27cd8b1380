import FrontEnd.Proofs.Tokenization
import Mathlib.Data.List.Find

/-!
Writing tokens and reading them back. Tokens are written in order, with layout before the first
and gaps between neighbours; whatever the layout is, a scan of the text has the same tokens and
nothing to report.
-/

set_option autoImplicit false

namespace FrontEnd

namespace Segment

/-! ### Layout -/

/-- Blanks, line comments with the newline behind them, and block comments, in any order. -/
inductive Layout : List Char → Prop where
  | nil : Layout []
  | blank {c : Char} {cs : List Char} : Text.isBlank c → Layout cs → Layout (c :: cs)
  | lineComment {inside cs : List Char} :
    '\n' ∉ inside → Layout cs → Layout ('/' :: '/' :: (inside ++ '\n' :: cs))
  | blockComment {inside cs : List Char} :
    ¬ Closes inside → Layout cs → Layout ('/' :: '*' :: (inside ++ '*' :: '/' :: cs))

/-- Layout that starts with a blank. -/
inductive Gap : List Char → Prop where
  | mk {c : Char} {cs : List Char} : Text.isBlank c → Layout cs → Gap (c :: cs)

/-- The text writes the tokens in order, with a gap behind each; behind the last one there may be
nothing. -/
inductive LaidOut : List (TokenKind × String) → List Char → Prop where
  | nil : LaidOut [] []
  | last {kind : TokenKind} {value : String} :
    Lexical kind value.toList → LaidOut [(kind, value)] (kind.written value)
  | cons {kind : TokenKind} {value : String} {gap text : List Char}
      {tokens : List (TokenKind × String)} :
    Lexical kind value.toList → Gap gap → LaidOut tokens text →
    LaidOut ((kind, value) :: tokens) (kind.written value ++ (gap ++ text))

/-! ### Where runs and comments stop -/

/-- Nothing follows, or a blank does. -/
def Parted (rest : List Char) : Prop := ∀ c ∈ rest.head?, Text.isBlank c

def blanks : List Char := [' ', '\t', '\n', '\x0b', '\x0c', '\r']

theorem mem_blanks {c : Char} (h : Text.isBlank c) : c ∈ blanks := by
  simpa [Text.isBlank, blanks, or_assoc] using h

theorem Parted.not_in {rest : List Char} (h : Parted rest) {p : Char → Bool}
    (hp : blanks.any p = false) : ∀ c ∈ rest.head?, p c = false :=
  fun c hc => Bool.eq_false_iff.2 (List.any_eq_false.1 hp c (mem_blanks (h c hc)))

/-- A character of a class without blanks is no blank. -/
theorem isBlank_eq_false {p : Char → Bool} (hp : blanks.any p = false) {c : Char}
    (h : p c) : Text.isBlank c = false := by
  rw [Bool.eq_false_iff]
  intro hb
  exact List.any_eq_false.1 hp c (mem_blanks hb) h

theorem cutRun_of_stop {segment : List Char → Segment} {inRun : Char → Bool} {c : Char}
    {cs rest : List Char} (hcs : ∀ d ∈ cs, inRun d) (hr : ∀ d ∈ rest.head?, inRun d = false) :
    cutRun segment inRun c (cs ++ rest) = (segment (c :: cs), rest) := by
  have ht : rest.takeWhile inRun = [] := by
    cases rest with
    | nil => rfl
    | cons d rest => simp [hr d rfl]
  have hd : rest.dropWhile inRun = rest := by
    cases rest with
    | nil => rfl
    | cons d rest => simp [hr d rfl]
  simp [cutRun, List.takeWhile_append_of_pos hcs, List.dropWhile_append_of_pos hcs, ht, hd]

theorem closeComment_of_not_closes {inside : List Char} (h : ¬ Closes inside)
    (rest : List Char) :
    closeComment (inside ++ '*' :: '/' :: rest) = some (inside ++ ['*', '/'], rest) := by
  induction inside with
  | nil => rfl
  | cons c cs ih =>
    have hcs : ¬ Closes cs := fun hx => h (List.infix_cons_iff.2 (.inr hx))
    rw [List.cons_append, closeComment]
    · simp [ih hcs]
    · -- the star and slash that close the comment do not start inside
      rintro ds rfl hds
      cases cs with
      | nil => simp at hds
      | cons d ds' =>
        obtain ⟨rfl, -⟩ := List.cons.inj hds
        exact h ⟨[], ds', rfl⟩

/-- A text without blanks does not reach into a gap. -/
theorem prefix_append_iff {u v rest : List Char} (hu : ∀ c ∈ u, ¬ Text.isBlank c)
    (hr : Parted rest) : u <+: v ++ rest ↔ u <+: v := by
  induction u generalizing v with
  | nil => simp
  | cons c u ih =>
    obtain ⟨hc, hu⟩ := List.forall_mem_cons.1 hu
    cases v with
    | nil =>
      refine iff_of_false ?_ (by simp)
      rintro ⟨ds, hd⟩
      exact hc (hr c (by rw [← List.nil_append rest, ← hd]; rfl))
    | cons d v => simp only [List.cons_append, List.cons_prefix_cons, ih hu]

/-! ### One token in front of a gap -/

theorem isDigit_of_isWordStart {c : Char} (h : isWordStart c) : Number.isDigit c = false := by
  rw [Bool.eq_false_iff]
  intro hd
  simp only [isWordStart, Number.isDigit, Bool.or_eq_true, Bool.and_eq_true, decide_eq_true_eq,
    Char.le_def, UInt32.le_iff_toNat_le] at h hd
  rcases h with (h | h) | rfl
  · simp at h hd
    omega
  · simp at h hd
    omega
  · revert hd
    decide

theorem cut_digit {c : Char} (h : Number.isDigit c) (cs : List Char) :
    cut c cs = cutRun ofNumber isNumberChar c cs := by
  have hb : Text.isBlank c = false := isBlank_eq_false (by decide) h
  have hn : ∀ d, Number.isDigit d = false → c ≠ d := by
    rintro d hd rfl
    rw [h] at hd
    cases hd
  simp [cut, hb, hn '/' rfl, hn '"' rfl, hn '\'' rfl, h]

theorem cut_word {c : Char} (h : isWordStart c) (cs : List Char) :
    cut c cs = cutRun ofWord isWordChar c cs := by
  have hb : Text.isBlank c = false := isBlank_eq_false (by decide) h
  have hn : ∀ d, isWordStart d = false → c ≠ d := by
    rintro d hd rfl
    rw [h] at hd
    cases hd
  simp [cut, hb, hn '/' rfl, hn '"' rfl, hn '\'' rfl, isDigit_of_isWordStart h, h]

/-- Behind the token that is written, the text goes on with `rest`. -/
def IsCut (kind : TokenKind) (value rest : List Char) : Prop :=
  ∃ c cs, kind.written (String.ofList value) = c :: cs ∧
    cut c (cs ++ rest) = (⟨c :: cs, .lexeme kind (String.ofList value), []⟩, rest)

section

variable {rest : List Char}

theorem operator?_written {kind : TokenKind} (hk : kind ∈ TokenKind.operators)
    (hr : Parted rest) : TokenKind.operator? (kind.spelling.toList ++ rest) = some kind := by
  have hb : ∀ k ∈ TokenKind.operators, k.spelling.toList.any Text.isBlank = false := by decide
  have hs : ∀ k ∈ TokenKind.operators, TokenKind.operator? k.spelling.toList = some k := by
    decide +kernel
  have hp : ∀ k ∈ TokenKind.operators, k.spelling.toList.isPrefixOf (kind.spelling.toList ++ rest)
      = k.spelling.toList.isPrefixOf kind.spelling.toList := by
    intro k hk'
    rw [Bool.eq_iff_iff, List.isPrefixOf_iff_prefix, List.isPrefixOf_iff_prefix]
    exact prefix_append_iff (List.any_eq_false.1 (hb k hk')) hr
  rw [← hs kind hk]
  exact List.find?_congr hp

theorem isCut_operator {kind : TokenKind} (hk : kind ∈ TokenKind.operators) (hr : Parted rest) :
    IsCut kind [] rest := by
  have hfirst : ∀ k ∈ TokenKind.operators, k.spelling.toList.head?.all fun c =>
      Text.isBlank c = false ∧ c ≠ '"' ∧ c ≠ '\'' ∧ Number.isDigit c = false ∧
        isWordStart c = false := by decide
  have hsecond : ∀ k ∈ TokenKind.operators, k.spelling.toList.tail.head?.all fun d =>
      d ≠ '/' ∧ d ≠ '*' := by decide
  obtain ⟨c, cs, hs⟩ := List.exists_cons_of_ne_nil (spelling_ne_nil_of_mem_operators hk)
  have hc := hfirst kind hk
  rw [hs] at hc
  obtain ⟨hb, hq, hq', hd, hw⟩ := of_decide_eq_true hc
  have hn : (cs ++ rest).head? ≠ some '/' ∧ (cs ++ rest).head? ≠ some '*' := by
    cases cs with
    | nil =>
      have hc := hr.not_in (p := fun c => c = '/' || c = '*') (by decide)
      constructor <;> intro h <;> simpa using hc _ h
    | cons d cs => simpa [hs] using hsecond kind hk
  have ho := operator?_written hk hr
  rw [hs, List.cons_append] at ho
  refine ⟨c, cs, by rw [TokenKind.written_eq_spelling (.inl hk), hs], ?_⟩
  simp only [cut, hb, hq, hq', hd, hw, hn.1, hn.2, decide_false, Bool.and_false, Bool.false_eq_true,
    if_false, cutOperator, ho, hs]
  simp

theorem isCut_word {kind : TokenKind} {value cs : List Char} {c : Char} (hc : isWordStart c)
    (hcs : ∀ d ∈ cs, isWordChar d) (hr : Parted rest)
    (hk : kind.written (String.ofList value) = c :: cs)
    (hw : ofWord (c :: cs) = ⟨c :: cs, .lexeme kind (String.ofList value), []⟩) :
    IsCut kind value rest :=
  ⟨c, cs, hk, by rw [cut_word hc, cutRun_of_stop hcs (hr.not_in (by decide)), hw]⟩

theorem isCut_keyword {kind : TokenKind} (hk : kind ∈ TokenKind.keywords) (hr : Parted rest) :
    IsCut kind [] rest := by
  have hfirst : ∀ k ∈ TokenKind.keywords, k.spelling.toList.head?.all isWordStart := by decide
  have htail : ∀ k ∈ TokenKind.keywords, k.spelling.toList.tail.all isWordChar := by decide
  have hne : ∀ k ∈ TokenKind.keywords, k.spelling.toList ≠ [] := by decide
  have hread : ∀ k ∈ TokenKind.keywords, TokenKind.keyword? k.spelling = some k := by
    decide +kernel
  obtain ⟨c, cs, hs⟩ := List.exists_cons_of_ne_nil (hne kind hk)
  have hw : String.ofList (c :: cs) = kind.spelling := by rw [← hs, String.ofList_toList]
  have hc := hfirst kind hk
  have hcs := htail kind hk
  rw [hs] at hc hcs
  rw [List.tail_cons] at hcs
  refine isCut_word hc (List.all_eq_true.1 hcs) hr ?_ ?_
  · rw [TokenKind.written_eq_spelling (.inr hk), hs]
  · simp [ofWord, hw, hread kind hk]

theorem isCut_identifier {c : Char} {cs : List Char} (hc : isWordStart c)
    (hcs : ∀ d ∈ cs, isWordChar d)
    (hn : ∀ kind ∈ TokenKind.keywords, kind.spelling ≠ String.ofList (c :: cs))
    (hr : Parted rest) : IsCut .identifier (c :: cs) rest := by
  have hk : TokenKind.keyword? (String.ofList (c :: cs)) = none := by
    simpa [TokenKind.keyword?, TokenKind.spelled?] using hn
  refine isCut_word hc hcs hr (by simp [TokenKind.written]) ?_
  simp only [ofWord, hk]

/-- Digits and at most one point among them. -/
theorem isCut_number {kind : TokenKind} {c : Char} {cs : List Char} (hc : Number.isDigit c)
    (hcs : ∀ d ∈ cs, isNumberChar d) (hk : kind.written (String.ofList (c :: cs)) = c :: cs)
    (hn : ofNumber (c :: cs) = ⟨c :: cs, .lexeme kind (String.ofList (c :: cs)), []⟩)
    (hr : Parted rest) : IsCut kind (c :: cs) rest :=
  ⟨c, cs, hk, by rw [cut_digit hc, cutRun_of_stop hcs (hr.not_in (by decide)), hn]⟩

theorem isCut_string {value : List Char} (h : StringBody value) : IsCut .string value rest := by
  refine ⟨'"', value ++ ['"'], by simp [TokenKind.written], ?_⟩
  rw [List.append_assoc]
  simp [cut, Text.isBlank, cutString, h.closeString]

theorem isCut_character {value : List Char} (h : CharacterBody value) :
    IsCut .character value rest := by
  refine ⟨'\'', value ++ ['\''], by simp [TokenKind.written], ?_⟩
  rw [List.append_assoc]
  simp [cut, Text.isBlank, cutCharacter, h.characterBody]

/-- A token in front of a gap is cut off as it is written. -/
theorem Lexical.isCut {kind : TokenKind} {value : List Char} (h : Lexical kind value)
    (hr : Parted rest) : IsCut kind value rest := by
  have hpoint {ds : List Char} (hd : ∀ d ∈ ds, Number.isDigit d) : ∀ d ∈ ds, isNumberChar d :=
    fun d hm => by simp [isNumberChar, hd d hm]
  cases h with
  | operator hk => exact isCut_operator hk hr
  | keyword hk => exact isCut_keyword hk hr
  | identifier hc hcs hn => exact isCut_identifier hc hcs hn hr
  | integer hd =>
    obtain ⟨hc, hcs⟩ := List.forall_mem_cons.1 hd
    exact isCut_number hc (hpoint hcs) (by simp [TokenKind.written]) (ofNumber_digits hd) hr
  | real hd hf =>
    obtain ⟨hc, hcs⟩ := List.forall_mem_cons.1 hd
    refine isCut_number hc ?_ (by simp [TokenKind.written]) (ofNumber_point hd hf) hr
    have hf : ∀ d ∈ '.' :: _, isNumberChar d := List.forall_mem_cons.2 ⟨by decide, hpoint hf⟩
    exact fun d hm => (List.mem_append.1 hm).elim (hpoint hcs d) (hf d)
  | string hv => exact isCut_string hv
  | character hv => exact isCut_character hv

end

/-! ### What a text bears -/

/-- The kind and value of the token that a segment bears. -/
def lexeme? (s : Segment) : Option (TokenKind × String) :=
  match s.role with
  | .lexeme kind value => some (kind, value)
  | _ => none

/-- The tokens of a text are `tokens`, and it has no faults. -/
def Bears (text : List Char) (tokens : List (TokenKind × String)) : Prop :=
  (segments text).filterMap lexeme? = tokens ∧ ∀ s ∈ segments text, s.faults = []

theorem bears_nil : Bears [] [] := by simp [Bears, segments]

theorem segments_cons (c : Char) (cs : List Char) :
    segments (c :: cs) = (cut c cs).1 :: segments (cut c cs).2 := by
  rw [segments]

theorem Bears.lexeme {text : List Char} {tokens : List (TokenKind × String)}
    (h : Bears text tokens) {kind : TokenKind} {value : String}
    (hk : IsCut kind value.toList text) :
    Bears (kind.written value ++ text) ((kind, value) :: tokens) := by
  obtain ⟨c, cs, hw, hcut⟩ := hk
  rw [String.ofList_toList] at hw hcut
  rw [hw, Bears, List.cons_append, segments_cons, hcut]
  exact ⟨by simp [lexeme?, h.1], List.forall_mem_cons.2 ⟨rfl, h.2⟩⟩

/-- A segment in front that bears nothing does not matter. -/
theorem bears_cons_iff {c : Char} {cs rest : List Char} {s : Segment} (hc : cut c cs = (s, rest))
    (hl : s.lexeme? = none) (hf : s.faults = []) (tokens : List (TokenKind × String)) :
    Bears (c :: cs) tokens ↔ Bears rest tokens := by
  simp [Bears, segments_cons, hc, hl, hf]

theorem bears_blank_iff {c : Char} (hc : Text.isBlank c) (cs : List Char)
    (tokens : List (TokenKind × String)) : Bears (c :: cs) tokens ↔ Bears cs tokens := by
  have hrun : ∀ d ds, Text.isBlank d → (Bears (d :: ds) tokens ↔
      Bears (ds.dropWhile Text.isBlank) tokens) := by
    intro d ds hd
    have hcut : cut d ds = cutRun (⟨·, .blank, []⟩) Text.isBlank d ds := by simp [cut, hd]
    exact bears_cons_iff hcut rfl rfl tokens
  rw [hrun c cs hc]
  cases cs with
  | nil => rfl
  | cons d ds =>
    by_cases hd : Text.isBlank d
    · rw [hrun d ds hd, List.dropWhile_cons_of_pos hd]
    · rw [List.dropWhile_cons_of_neg hd]

theorem bears_lineComment_iff {inside : List Char} (hi : '\n' ∉ inside) (cs : List Char)
    (tokens : List (TokenKind × String)) :
    Bears ('/' :: '/' :: (inside ++ '\n' :: cs)) tokens ↔ Bears cs tokens := by
  have hrun : ∀ d ∈ '/' :: inside, decide (d ≠ '\n') = true := by
    intro d hd
    rw [decide_eq_true_eq]
    rintro rfl
    exact hi (by simpa using hd)
  have hcut : cut '/' ('/' :: (inside ++ '\n' :: cs))
      = (⟨'/' :: '/' :: inside, .comment, []⟩, '\n' :: cs) := by
    have h : cutRun (⟨·, .comment, []⟩) (· ≠ '\n') '/' ('/' :: inside ++ '\n' :: cs)
        = (⟨'/' :: '/' :: inside, .comment, []⟩, '\n' :: cs) := cutRun_of_stop hrun (by simp)
    simpa [cut, Text.isBlank] using h
  rw [bears_cons_iff hcut rfl rfl]
  exact bears_blank_iff (by decide) cs tokens

theorem bears_blockComment_iff {inside : List Char} (hi : ¬ Closes inside) (cs : List Char)
    (tokens : List (TokenKind × String)) :
    Bears ('/' :: '*' :: (inside ++ '*' :: '/' :: cs)) tokens ↔ Bears cs tokens := by
  have hcut : cut '/' ('*' :: (inside ++ '*' :: '/' :: cs))
      = (⟨'/' :: '*' :: (inside ++ ['*', '/']), .comment, []⟩, cs) := by
    simp [cut, Text.isBlank, cutComment, closeComment_of_not_closes hi]
  exact bears_cons_iff hcut rfl rfl tokens

/-- Layout in front of a text does not matter. -/
theorem Layout.bears_iff {layout : List Char} (h : Layout layout) (text : List Char)
    (tokens : List (TokenKind × String)) : Bears (layout ++ text) tokens ↔ Bears text tokens := by
  induction h with
  | nil => rfl
  | blank hc _ ih => rw [List.cons_append, bears_blank_iff hc, ih]
  | @lineComment _ cs hi _ ih =>
    have hc := bears_lineComment_iff hi (cs ++ text) tokens
    rw [ih] at hc
    simpa using hc
  | @blockComment _ cs hi _ ih =>
    have hc := bears_blockComment_iff hi (cs ++ text) tokens
    rw [ih] at hc
    simpa using hc

theorem Gap.bears_iff {gap : List Char} (h : Gap gap) (text : List Char)
    (tokens : List (TokenKind × String)) : Bears (gap ++ text) tokens ↔ Bears text tokens := by
  cases h with
  | mk hc hl => rw [List.cons_append, bears_blank_iff hc, hl.bears_iff]

theorem Gap.parted {gap : List Char} (h : Gap gap) (text : List Char) : Parted (gap ++ text) := by
  cases h with
  | mk hc => simpa [Parted] using hc

theorem LaidOut.bears {tokens : List (TokenKind × String)} {text : List Char}
    (h : LaidOut tokens text) : Bears text tokens := by
  induction h with
  | nil => exact bears_nil
  | @last kind value hl =>
    have hb := bears_nil.lexeme (hl.isCut (by simp [Parted]))
    rwa [List.append_nil] at hb
  | cons hl hg _ ih => exact ((hg.bears_iff _ _).2 ih).lexeme (hl.isCut (hg.parted _))

end Segment

namespace Scan

theorem map_borne (file : String) (before : List Char) (segments : List Segment) :
    (Segment.borne file before segments).map (fun t => (t.kind, t.value))
      = segments.filterMap Segment.lexeme? := by
  induction segments generalizing before with
  | nil => rfl
  | cons s rest ih =>
    obtain ⟨text, role, faults⟩ := s
    cases role <;> simp [Segment.borne, List.filterMap_cons, Segment.lexeme?, ih]

/-- A scan of a text that bears `tokens` has them and nothing to report. -/
theorem ofSource_of_bears {source : Source} {tokens : List (TokenKind × String)}
    (h : Segment.Bears source.text.toList tokens) :
    (ofSource source).tokens.map (fun t => (t.kind, t.value)) = tokens ++ [(.eof, "")] ∧
      (ofSource source).diagnostics = [] := by
  obtain ⟨hl, hf⟩ := h
  constructor
  · have hb := Segment.filterMap_locate source.name [] (Segment.segments source.text.toList)
    have hm := map_borne source.name [] (Segment.segments source.text.toList)
    rw [← hb, hl] at hm
    rw [Scan.tokens, List.map_append, ← hm]
    rfl
  · refine List.flatMap_eq_nil_iff.2 fun p hp => ?_
    obtain ⟨before, after, hs, -⟩ := Segment.exists_of_mem_locate hp
    simp [Segment.diagnostics, hf p.2 (by simp [hs])]

/-- Tokens that are written in any layout are scanned as they are, with the end token behind them
and no diagnostics. -/
theorem tokens_of_laidOut {before text : List Char} {tokens : List (TokenKind × String)}
    (hb : Segment.Layout before) (ht : Segment.LaidOut tokens text) (name : String) :
    (ofSource ⟨name, String.ofList (before ++ text)⟩).tokens.map (fun t => (t.kind, t.value))
        = tokens ++ [(.eof, "")] ∧
      (ofSource ⟨name, String.ofList (before ++ text)⟩).diagnostics = [] := by
  apply ofSource_of_bears
  rw [String.toList_ofList, hb.bears_iff]
  exact ht.bears

/-- A comment with the start of another inside, a slash before a line comment, a word that starts
with a keyword, and quotes inside of literals. -/
theorem tokens_of_slashes :
    Segment.Layout "/*/**/".toList ∧
      Segment.LaidOut [(.slash, ""), (.identifier, "iff"), (.string, "\\\""), (.character, "'")]
        "/ //*\niff\n\"\\\"\" '''".toList ∧
      (ofSource ⟨"t", "/*/**// //*\niff\n\"\\\"\" '''"⟩).tokens.map (fun t => (t.kind, t.value))
        = [(.slash, ""), (.identifier, "iff"), (.string, "\\\""), (.character, "'"), (.eof, "")] ∧
      (ofSource ⟨"t", "/*/**// //*\niff\n\"\\\"\" '''"⟩).diagnostics = [] := by
  have hclosed : ¬ Segment.Closes ['/', '*'] := by unfold Segment.Closes; decide
  have hline : '\n' ∉ ['*'] := by decide
  have hb : Segment.Layout "/*/**/".toList := .blockComment hclosed .nil
  have hgap : Segment.Gap [' ', '/', '/', '*', '\n'] := .mk rfl (.lineComment hline .nil)
  have hword : Segment.Lexical .identifier ['i', 'f', 'f'] :=
    .identifier rfl (List.all_eq_true.1 rfl) (by decide)
  have hstring : Segment.Lexical .string ['\\', '"'] := .string (.escape .nil)
  have hquote : Segment.Lexical .character ['\''] := .character (.plain (by decide))
  have ht : Segment.LaidOut
      [(.slash, ""), (.identifier, "iff"), (.string, "\\\""), (.character, "'")]
      "/ //*\niff\n\"\\\"\" '''".toList :=
    .cons (.operator (by decide)) hgap (.cons hword (.mk rfl .nil)
      (.cons hstring (.mk rfl .nil) (.last hquote)))
  exact ⟨hb, ht, tokens_of_laidOut hb ht "t"⟩

end Scan

end FrontEnd
