import FrontEnd.Analysis
import FrontEnd.Proofs.Composition
import FrontEnd.Proofs.Faults
import FrontEnd.Proofs.Parallel.Clause
import Mathlib.Data.List.Nodup
import Mathlib.Data.List.TakeWhile

/-!
The diagnostics of an analysis tell the truth and come in source order. Each denotes a byte of the
source, and what its cause says holds of the text or of the token there. Those of the scan are at
increasing bytes, and those of the reading of the tokens never go back.
-/

set_option autoImplicit false

namespace FrontEnd

open Text (bytes)

/-! ### Tokens from left to right -/

namespace Segment

/-- A lexeme bears its token at its start. -/
def lexemeSpots (s : Segment) : List Nat :=
  match s.role with
  | .lexeme _ _ => [0]
  | _ => []

theorem places_borne (file : String) (before : List Char) (segments : List Segment) :
    (borne file before segments).map (·.position.toPlace)
      = spotted lexemeSpots (.behind before) segments := by
  induction segments generalizing before with
  | nil => rfl
  | cons s rest ih =>
    rw [borne_cons, List.map_append, ih, spotted_cons, Place.behind_append]
    obtain ⟨text, role, faults⟩ := s
    cases role <;> rfl

theorem spaced_lexemeSpots (text : List Char) : Spaced lexemeSpots (segments text) := by
  have hzero : ∀ s, ∀ n ∈ lexemeSpots s, n = 0 := by
    intro s n hn
    unfold lexemeSpots at hn
    split at hn
    · exact List.mem_singleton.1 hn
    · cases hn
  constructor
  · intro s _
    unfold lexemeSpots
    split <;> simp
  · intro before s after h n hn
    have hs : s ∈ segments text := by simp [h]
    have hlt := List.length_pos_iff.2 (text_ne_nil_of_mem_segments hs)
    rw [hzero s n hn]
    exact ⟨Nat.zero_le _, fun _ => hlt⟩

/-- A token of a text can be written, and stands in front of some of the text. -/
theorem lexical_of_mem_borne {file : String} {text : List Char} {t : Token}
    (h : t ∈ borne file [] (segments text)) :
    ∃ before after, text = before ++ after ∧ after ≠ [] ∧
      t.position = ⟨.behind before, file⟩ ∧ Lexical t.kind t.value.toList := by
  obtain ⟨before, s, after, hs, hr, hp⟩ := exists_of_mem_borne h
  have hmem : s ∈ segments text := by simp [hs]
  have hj := flatMap_segments text
  rw [hs, List.flatMap_append, List.flatMap_cons] at hj
  refine ⟨_, _, hj.symm, ?_, hp, (segments_formed hs).lexical hr⟩
  simp [text_ne_nil_of_mem_segments hmem]

end Segment

namespace Scan

theorem tokens_eq_borne (source : Source) :
    (ofSource source).tokens
      = Segment.borne source.name [] (Segment.segments source.text.toList)
        ++ [(ofSource source).endToken] := by
  rw [← Segment.filterMap_locate]
  rfl

theorem position_endToken (source : Source) :
    (ofSource source).endToken.position = ⟨.behind source.text.toList, source.name⟩ := by
  rw [← Place.start_after]
  rfl

theorem offset_endToken (source : Source) :
    (ofSource source).endToken.position.offset source.text.toList = bytes source.text.toList := by
  have h := Place.offset_behind source.text.toList []
  rwa [List.append_nil, ← Place.start_after] at h

/-- A token stands at a byte of the source. At its end stands the end token, elsewhere a token that
can be written. -/
theorem exists_of_mem_tokens {source : Source} {t : Token} (h : t ∈ (ofSource source).tokens) :
    ∃ before after, source.text.toList = before ++ after ∧
      t.position = ⟨.behind before, source.name⟩ ∧
      (t = (ofSource source).endToken ∧ after = [] ∨
        Segment.Lexical t.kind t.value.toList ∧ after ≠ []) := by
  rw [tokens_eq_borne] at h
  obtain h | h := List.mem_append.1 h
  · obtain ⟨before, after, ht, ha, hp, hl⟩ := Segment.lexical_of_mem_borne h
    exact ⟨before, after, ht, hp, .inr ⟨hl, ha⟩⟩
  · obtain rfl := List.mem_singleton.1 h
    exact ⟨_, [], (List.append_nil _).symm, position_endToken source, .inl ⟨rfl, rfl⟩⟩

theorem offset_le_of_mem_tokens {source : Source} {t : Token} (h : t ∈ (ofSource source).tokens) :
    t.position.offset source.text.toList
      ≤ (ofSource source).endToken.position.offset source.text.toList := by
  obtain ⟨before, after, ht, hp, -⟩ := exists_of_mem_tokens h
  rw [offset_endToken, hp, ht, Place.offset_behind, Text.bytes_append]
  exact Nat.le_add_right _ _

theorem pairwise_tokens (source : Source) :
    (ofSource source).tokens.Pairwise fun t u =>
      t.position.offset source.text.toList < u.position.offset source.text.toList := by
  have hp := (Segment.spaced_lexemeSpots source.text.toList).pairwise []
  rw [Segment.flatMap_segments, ← Segment.places_borne source.name, List.pairwise_map] at hp
  rw [tokens_eq_borne]
  refine List.pairwise_append.2 ⟨hp, List.pairwise_singleton _ _, ?_⟩
  intro t ht u hu
  obtain rfl := List.mem_singleton.1 hu
  obtain ⟨before, after, hs, ha, hp, -⟩ := Segment.lexical_of_mem_borne ht
  have hlt : 0 < bytes after :=
    Nat.lt_of_lt_of_le (List.length_pos_iff.2 ha) (Text.length_le_bytes after)
  rw [offset_endToken, hp, hs, Place.offset_behind, Text.bytes_append]
  omega

/-- The token that stands at a position, and no other does. -/
def TokenAt (scan : Scan) (p : Position) (t : Token) : Prop :=
  ∀ u, u ∈ scan.tokens ∧ u.position = p ↔ u = t

theorem tokenAt_of_mem {source : Source} {t : Token} (h : t ∈ (ofSource source).tokens) :
    (ofSource source).TokenAt t.position t := by
  intro u
  refine ⟨fun ⟨hu, hp⟩ => ?_, fun hu => hu.symm ▸ ⟨h, rfl⟩⟩
  have hn : ((ofSource source).tokens.map (·.position.offset source.text.toList)).Nodup :=
    List.pairwise_map.2 ((pairwise_tokens source).imp Nat.ne_of_lt)
  exact List.inj_on_of_nodup_map hn hu h (by rw [hp])

end Scan

/-! ### Numbers -/

namespace Number.Binary64

theorem decimal?_point {whole fraction : List Char} (hw : ∀ d ∈ whole, isDigit d)
    (hf : ∀ d ∈ fraction, isDigit d) (hn : whole ≠ []) :
    decimal? (whole ++ '.' :: fraction)
      = some (ofDecimal (whole ++ fraction) (0 - fraction.length)) := by
  have hp : isDigit '.' = false := by decide
  have ht : (whole ++ '.' :: fraction).takeWhile isDigit = whole := by
    rw [List.takeWhile_append_of_pos hw, List.takeWhile_cons, hp]
    simp
  have hd : (whole ++ '.' :: fraction).dropWhile isDigit = '.' :: fraction := by
    rw [List.dropWhile_append_of_pos hw, List.dropWhile_cons, hp]
    simp
  have hft : fraction.takeWhile isDigit = fraction := List.takeWhile_eq_self_iff.2 hf
  have hfd : fraction.dropWhile isDigit = [] := List.dropWhile_eq_nil_iff.2 hf
  simp [decimal?, ht, hd, hft, hfd, hn, exponent?]

/-- A text with a point is no name of an infinity or NaN. -/
theorem unsigned?_of_point {cs : List Char} (h : '.' ∈ cs) : unsigned? cs = decimal? cs := by
  have hm : '.' ∈ (String.ofList (cs.map Char.toLower)).toList := by
    rw [String.toList_ofList]
    exact List.mem_map.2 ⟨'.', h, by decide⟩
  have hname : ∀ name : String, '.' ∉ name.toList →
      String.ofList (cs.map Char.toLower) ≠ name := by
    rintro name hn rfl
    exact hn hm
  simp [unsigned?, hname "inf" (by decide), hname "infinity" (by decide),
    hname "nan" (by decide)]

end Number.Binary64

/-- The text of a real number is read as a decimal. -/
theorem Segment.Lexical.exists_ofText? {value : String}
    (h : Segment.Lexical .realNumber value.toList) :
    ∃ digits exponent, Number.Binary64.ofText? value
      = some (Number.Binary64.ofDecimal digits exponent) := by
  generalize hv : value.toList = cs at h
  cases h with
  | operator hk | keyword hk => exact absurd hk (by decide)
  | @real c cs fraction hd hf =>
    have hsign : ∀ d, Number.isDigit d = false → c ≠ d := by
      rintro d hn rfl
      rw [hd c List.mem_cons_self] at hn
      cases hn
    have hu : Number.Binary64.ofText? value
        = Number.Binary64.unsigned? (c :: cs ++ '.' :: fraction) := by
      rw [Number.Binary64.ofText?, hv]
      split
      · rename_i he
        exact absurd (List.cons.inj he).1 (hsign '+' (by decide))
      · rename_i he
        exact absurd (List.cons.inj he).1 (hsign '-' (by decide))
      · rfl
    rw [hu, Number.Binary64.unsigned?_of_point (by simp),
      Number.Binary64.decimal?_point hd hf (List.cons_ne_nil c cs)]
    exact ⟨_, _, rfl⟩

theorem Segment.Lexical.ofText?_ne_none {value : String}
    (h : Segment.Lexical .realNumber value.toList) : Number.Binary64.ofText? value ≠ none := by
  obtain ⟨digits, exponent, he⟩ := h.exists_ofText?
  simp [he]

/-! ### What diagnostics say -/

/-- What a cause says of a scanned source when it is blamed at a position with the text `before` in
front of it and the text `after` behind it. -/
def Cause.Holds (scan : Scan) (p : Position) (before after : List Char) : Cause → Prop
  | .unexpectedCharacter c | .unknownOperator c | .malformedCharacter c => after.head? = some c
  | .tooManyDecimalPoints literal =>
    ∃ front left right back, before = front ++ left ∧ after = '.' :: right ++ back ∧
      literal.toList = left ++ '.' :: right ∧ '.' ∈ left ∧
      Segment.NumberRun front literal.toList back
  | .unexpectedEndOfFile | .missingClosingBrace => after = []
  | .unexpectedToken expected found =>
    found ≠ expected ∧ ∃ t, scan.TokenAt p t ∧ t.kind = found
  | .expectedPrimaryExpression found => ∃ t, scan.TokenAt p t ∧ t.kind = found
  | .invalidCallTarget => ∃ t, scan.TokenAt p t ∧ t.kind = .lParen
  | .numberParseError text =>
    ∃ t, scan.TokenAt p t ∧ t.kind = .integer ∧ t.value = text ∧ Number.int64? text = none
  | .fileRead _ _ => False

/-- A diagnostic blames a byte of the source, and what it says holds there. -/
structure Diagnostic.Truthful (source : Source) (d : Diagnostic) : Prop where
  file : d.position.file = source.name
  within : d.position.offset source.text.toList ≤ source.text.utf8ByteSize
  /-- The line of the position is there to be shown. -/
  line : (Source.line? source.text d.position.line).isSome
  /-- Lines and columns fit where the byte does. -/
  fits : d.position.line ≤ d.position.offset source.text.toList + 1 ∧
    d.position.column ≤ d.position.offset source.text.toList + 1
  holds : ∃ before after, source.text.toList = before ++ after ∧
    bytes before = d.position.offset source.text.toList ∧
    d.position.toPlace = .behind before ∧
    d.cause.Holds (.ofSource source) d.position before after

theorem Diagnostic.truthful_of_holds {source : Source} {cause : Cause} {before after : List Char}
    (ht : source.text.toList = before ++ after)
    (h : cause.Holds (.ofSource source) ⟨.behind before, source.name⟩ before after) :
    Diagnostic.Truthful source ⟨cause, ⟨.behind before, source.name⟩⟩ := by
  have hb : (Place.behind before).offset source.text.toList = bytes before := by
    rw [ht, Place.offset_behind]
  have hle : bytes before ≤ source.text.utf8ByteSize := by
    rw [← Text.bytes_toList, ht, Text.bytes_append]
    exact Nat.le_add_right _ _
  refine ⟨rfl, hb ▸ hle, Source.line?_behind ht, ?_, before, after, ht, hb.symm, rfl, h⟩
  rw [hb]
  exact Place.behind_le_succ before

/-! ### The diagnostics of the scan -/

theorem Scan.truthful_of_mem_diagnostics {source : Source} {d : Diagnostic}
    (h : d ∈ (ofSource source).diagnostics) : d.Truthful source := by
  obtain ⟨before, s, after, hs, ⟨offset, cause⟩, hf, rfl⟩ := exists_of_mem_diagnostics h
  have htells := (Segment.segments_truthful hs).tells _ hf
  have hsplit := List.take_append_drop offset s.text
  have htext : source.text.toList = (before.flatMap (·.text) ++ s.text.take offset)
      ++ (s.text.drop offset ++ after.flatMap (·.text)) := by
    rw [← Segment.flatMap_segments source.text.toList, hs, List.flatMap_append, List.flatMap_cons,
      List.append_assoc, ← List.append_assoc (s.text.take offset), hsplit]
  have hhead : ∀ c, s.text[offset]? = some c →
      (s.text.drop offset ++ after.flatMap (·.text)).head? = some c := by
    intro c hc
    rw [List.head?_append, List.head?_drop, hc]
    rfl
  refine Diagnostic.truthful_of_holds htext ?_
  cases cause with
  | unexpectedCharacter c | unknownOperator c | malformedCharacter c => exact hhead c htells
  | tooManyDecimalPoints literal =>
    obtain ⟨hpoint, hseen, hl, hrun⟩ := htells
    obtain ⟨hlt, he⟩ := List.getElem?_eq_some_iff.1 hpoint
    have hd : s.text.drop offset = '.' :: s.text.drop (offset + 1) := by
      rw [List.drop_eq_getElem_cons hlt, he]
    refine ⟨_, s.text.take offset, s.text.drop (offset + 1), _, rfl, by rw [hd], ?_, hseen, ?_⟩
    · rw [hl, ← hd, hsplit]
    · rw [hl]
      exact Segment.numberRun_of_segments hs hrun
  | unexpectedEndOfFile =>
    obtain ⟨ho, ha⟩ := htells
    show s.text.drop offset ++ after.flatMap (·.text) = []
    rw [ha, show offset = s.text.length from ho, List.drop_length, List.append_nil]
  | fileRead | unexpectedToken | expectedPrimaryExpression | invalidCallTarget | numberParseError
  | missingClosingBrace => exact htells.elim

/-! ### The diagnostics of reading the tokens -/

theorem Grammar.program_trail (tokens : List Token) :
    Trail [] [] tokens tokens (faults (program .standard tokens).events)
      (faults (program .standard tokens).events) (program .standard tokens).rest
      (program .standard tokens).rest :=
  (program_parallel (alike_refl tokens) (Nat.zero_le _)).2

namespace Analysis

theorem endToken_tokens (scan : Scan) : Grammar.endToken scan.tokens = scan.endToken := by
  simp [Grammar.endToken, Scan.tokens, Scan.endToken]

theorem session_diagnostics (source : Source) :
    (ofSource source).session.diagnostics
      = (Grammar.faults (Grammar.program .standard (Scan.ofSource source).tokens).events).map
          (Grammar.Failure.diagnostic (Scan.ofSource source).endToken) := by
  rw [← endToken_tokens]
  exact Grammar.parse_snd (Scan.ofSource source).tokens

/-- At the end of the tokens it is the end token that is blamed. -/
theorem exists_blamed {source : Source} {bs : List Token}
    (hs : bs <:+ (Scan.ofSource source).tokens) :
    ∃ t ∈ (Scan.ofSource source).tokens, bs.head?.getD (Scan.ofSource source).endToken = t ∧
      Grammar.headKind bs = t.kind ∧ ∀ u, bs.head? = some u → u = t := by
  cases bs with
  | nil =>
    exact ⟨_, by simp [Scan.tokens], rfl, rfl, by simp⟩
  | cons t bs =>
    exact ⟨t, hs.subset List.mem_cons_self, rfl, rfl, fun u hu => (Option.some.inj hu).symm⟩

theorem truthful_of_mem_session {source : Source} {d : Diagnostic}
    (h : d ∈ (ofSource source).session.diagnostics) : d.Truthful source := by
  rw [session_diagnostics] at h
  obtain ⟨f, hf, rfl⟩ := List.mem_map.1 h
  obtain ⟨cause, bs, rfl, hs, hb⟩ := (Grammar.program_trail _).blames hf
  obtain ⟨t, ht, hstand, hkind, hhead⟩ := exists_blamed hs
  obtain ⟨before, after, htext, hp, hlex⟩ := Scan.exists_of_mem_tokens ht
  have hat := Scan.tokenAt_of_mem ht
  rw [Grammar.Failure.diagnostic, Grammar.Failure.here, hstand, hp]
  rw [hp] at hat
  refine Diagnostic.truthful_of_holds htext ?_
  cases cause with
  | unexpectedToken expected found => exact ⟨hb.2, t, hat, hkind ▸ hb.1⟩
  | expectedPrimaryExpression found => exact ⟨t, hat, hkind ▸ hb⟩
  | invalidCallTarget => exact ⟨t, hat, hkind ▸ hb⟩
  | numberParseError text =>
    obtain ⟨u, hu, hv, hk⟩ := hb
    obtain rfl := hhead u hu
    rcases hk with ⟨hk, hn⟩ | ⟨hk, hn⟩
    · exact ⟨u, hat, hk, hv, hn⟩
    · -- no real number of a scan is refused
      rcases hlex with ⟨rfl, -⟩ | ⟨hl, -⟩
      · cases hk
      · rw [hk] at hl
        exact absurd (hv ▸ hn) hl.ofText?_ne_none
  | missingClosingBrace =>
    rcases hlex with ⟨-, ha⟩ | ⟨hl, -⟩
    · exact ha
    · exact absurd (hkind ▸ hb) hl.ne_eof
  | unexpectedCharacter | unknownOperator | malformedCharacter | tooManyDecimalPoints
  | unexpectedEndOfFile | fileRead => exact hb.elim

theorem pairwise_session (source : Source) :
    ((ofSource source).session.diagnostics.map
      (·.position.offset source.text.toList)).Pairwise (· ≤ ·) := by
  rw [session_diagnostics, List.map_map, List.pairwise_map]
  refine (Grammar.program_trail _).pairwise (fun t? =>
    (t?.getD (Scan.ofSource source).endToken).position.offset source.text.toList) ?_
  intro bs cs hbs hcs
  cases cs with
  | nil =>
    obtain ⟨t, ht, he, -⟩ := exists_blamed hbs
    rw [he]
    exact Scan.offset_le_of_mem_tokens ht
  | cons c cs =>
    have hp := (Scan.pairwise_tokens source).sublist hbs.sublist
    have hc := hcs.subset List.mem_cons_self
    cases bs with
    | nil => cases hc
    | cons b bs =>
      obtain rfl | hc := List.mem_cons.1 hc
      · exact Nat.le_refl _
      · exact Nat.le_of_lt ((List.pairwise_cons.1 hp).1 c hc)

/-- Every diagnostic of an analysis tells the truth, those of the scan are at increasing bytes,
and those of reading the tokens never go back. -/
theorem diagnostics_ofSource (source : Source) :
    (∀ d ∈ (ofSource source).diagnostics, d.Truthful source) ∧
      ((ofSource source).scan.diagnostics.map
        (·.position.offset source.text.toList)).Pairwise (· < ·) ∧
      ((ofSource source).session.diagnostics.map
        (·.position.offset source.text.toList)).Pairwise (· ≤ ·) := by
  refine ⟨fun d hd => ?_, Scan.pairwise_diagnostics source, pairwise_session source⟩
  obtain hd | hd := List.mem_append.1 hd
  · exact Scan.truthful_of_mem_diagnostics hd
  · exact truthful_of_mem_session hd

/-- Behind a word and a point, a number starts only with the next digit. -/
theorem diagnostics_ofSource_word :
    ⟨.tooManyDecimalPoints "2.3.4", ⟨⟨2, 7⟩, "t"⟩⟩
        ∈ (ofSource ⟨"t", "é\na1.2.3.4"⟩).diagnostics ∧
      Diagnostic.Truthful ⟨"t", "é\na1.2.3.4"⟩
        ⟨.tooManyDecimalPoints "2.3.4", ⟨⟨2, 7⟩, "t"⟩⟩ := by
  have h : ⟨.tooManyDecimalPoints "2.3.4", ⟨⟨2, 7⟩, "t"⟩⟩
      ∈ (ofSource ⟨"t", "é\na1.2.3.4"⟩).diagnostics := by decide +kernel
  exact ⟨h, (diagnostics_ofSource _).1 _ h⟩

end Analysis

end FrontEnd
