import FrontEnd.Proofs.Stages

/-!
A scan stops early only at the end of the source. What it finds before a construct that nothing
closes is what it finds in the source without that construct: a segment that is complete does not
depend on how much of the text behind it is there.
-/

set_option autoImplicit false

namespace FrontEnd

namespace Segment

/-! ### Cutting with less text behind -/

section

variable {cs body rest : List Char}

theorem closeComment_again (h : closeComment cs = some (body, rest)) (more : List Char) :
    closeComment (body ++ more) = some (body, more) := by
  obtain ⟨inside, rfl, hi⟩ := closeComment_eq_some h
  rw [List.append_assoc]
  exact closeComment_of_not_closes hi more

theorem closeString_again (h : closeString false cs = some (body, rest)) (more : List Char) :
    closeString false (body ++ '"' :: more) = some (body, more) :=
  StringBody.closeString (closeString_eq_some h) more

theorem closeQuote_of_not_mem {inside : List Char} (h : '\'' ∉ inside) (rest : List Char) :
    closeQuote (inside ++ '\'' :: rest) = some (inside ++ ['\''], rest) := by
  induction inside with
  | nil => rfl
  | cons c cs ih =>
    rw [List.mem_cons, not_or] at h
    simp [closeQuote, Ne.symm h.1, ih h.2]

theorem closeQuote_again (h : closeQuote cs = some (body, rest)) (more : List Char) :
    closeQuote (body ++ more) = some (body, more) := by
  obtain ⟨inside, rfl, hi⟩ := closeQuote_eq_some h
  rw [List.append_assoc]
  exact closeQuote_of_not_mem hi more

end

theorem cut_comment (cs : List Char) : cut '/' ('*' :: cs) = cutComment cs := by
  simp [cut, Text.isBlank]

theorem cut_string (cs : List Char) : cut '"' cs = cutString cs := by simp [cut, Text.isBlank]

theorem cut_character (cs : List Char) : cut '\'' cs = cutCharacter cs := by
  simp [cut, Text.isBlank]

theorem exists_cutComment_text (cs : List Char) :
    ∃ more, (cutComment cs).1.text = '/' :: '*' :: more := by
  rw [cutComment]
  split <;> exact ⟨_, rfl⟩

section

variable {c : Char} {cs ds part : List Char}

theorem cutComment_again (hw : (cutComment cs).1.Whole)
    (hd : (cutComment cs).1.text ++ part = '/' :: '*' :: ds) :
    cutComment ds = ((cutComment cs).1, part) := by
  unfold cutComment at *
  cases hc : closeComment cs with
  | none =>
    rw [hc] at hw
    exact absurd hw (not_whole_unterminated _ _)
  | some split =>
    obtain ⟨body, rest⟩ := split
    obtain rfl : body ++ part = ds := by simpa [hc] using hd
    rw [closeComment_again hc part]

theorem cutString_again (hw : (cutString cs).1.Whole)
    (hd : (cutString cs).1.text ++ part = '"' :: ds) :
    cutString ds = ((cutString cs).1, part) := by
  unfold cutString at *
  cases hc : closeString false cs with
  | none =>
    rw [hc] at hw
    exact absurd hw (not_whole_unterminated _ _)
  | some split =>
    obtain ⟨body, rest⟩ := split
    obtain rfl : body ++ '"' :: part = ds := by simpa [hc] using hd
    rw [closeString_again hc part]

theorem cutCharacter_again (hw : (cutCharacter cs).1.Whole)
    (hd : (cutCharacter cs).1.text ++ part = '\'' :: ds) :
    cutCharacter ds = ((cutCharacter cs).1, part) := by
  unfold cutCharacter at *
  cases hc : characterBody cs with
  | none =>
    rw [hc] at hw
    exact absurd hw (not_whole_unterminated _ _)
  | some split =>
    obtain ⟨body, rest⟩ := split
    have hb := characterBody_eq_some hc
    rw [hc] at hw hd
    cases rest with
    | nil => exact absurd hw (not_whole_unterminated _ _)
    | cons d rest =>
      dsimp only at hw hd ⊢
      by_cases hq : d = '\''
      · obtain rfl : body ++ '\'' :: part = ds := by simpa [hq] using hd
        simp [hb.characterBody, hq]
      · simp only [hq, if_false] at hw hd ⊢
        cases hs : closeQuote rest with
        | none =>
          rw [hs] at hw
          exact absurd hw (not_whole_unterminated _ _)
        | some split =>
          obtain ⟨skipped, rest'⟩ := split
          obtain rfl : body ++ d :: (skipped ++ part) = ds := by simpa [hs] using hd
          simp [hb.characterBody, hq, closeQuote_again hs]

theorem cutRun_again {segment : List Char → Segment} (hs : ∀ run, (segment run).text = run)
    {inRun : Char → Bool} (hp : part <+: (cutRun segment inRun c cs).2)
    (hd : (cutRun segment inRun c cs).1.text ++ part = c :: ds) :
    cutRun segment inRun c ds = ((cutRun segment inRun c cs).1, part) := by
  obtain rfl : cs.takeWhile inRun ++ part = ds := by simpa [cutRun, hs] using hd
  refine cutRun_of_stop (List.all_eq_true.1 List.all_takeWhile) fun d hd => ?_
  -- what follows the run starts as it does in the whole text
  obtain ⟨back, hb⟩ := hp
  have hn := List.head?_dropWhile_not inRun cs
  rw [show cs.dropWhile inRun = part ++ back from hb.symm, List.head?_append,
    Option.mem_def.1 hd] at hn
  simpa using hn

theorem operator?_of_isPrefix {kind : TokenKind} (h : TokenKind.operator? cs = some kind)
    (hp : ds <+: cs) (hk : kind.spelling.toList <+: ds) : TokenKind.operator? ds = some kind := by
  obtain ⟨-, front, back, ho, hn⟩ := List.find?_eq_some_iff_append.1 h
  refine List.find?_eq_some_iff_append.2 ⟨by simpa using hk, front, back, ho, fun k hm => ?_⟩
  have hc : ¬ k.spelling.toList <+: cs := by
    rw [← List.isPrefixOf_iff_prefix, Bool.not_eq_true, ← Bool.not_eq_true']
    exact hn k hm
  rw [Bool.not_eq_true', Bool.eq_false_iff, ne_eq, List.isPrefixOf_iff_prefix]
  exact fun hx => hc (hx.trans hp)

theorem operator?_eq_none_of_isPrefix (h : TokenKind.operator? cs = none) (hp : ds <+: cs) :
    TokenKind.operator? ds = none := by
  refine List.find?_eq_none.2 fun k hk => ?_
  have hc : ¬ k.spelling.toList <+: cs := by simpa using List.find?_eq_none.1 h k hk
  simpa using fun hx => hc (List.IsPrefix.trans hx hp)

theorem cutOperator_again (hp : ds <+: cs)
    (hd : (cutOperator c cs).1.text ++ part = c :: ds) :
    cutOperator c ds = ((cutOperator c cs).1, part) := by
  have hc : c :: ds <+: c :: cs := List.cons_prefix_cons.2 ⟨rfl, hp⟩
  unfold cutOperator at *
  cases ho : TokenKind.operator? (c :: cs) with
  | none =>
    rw [ho] at hd
    obtain rfl : part = ds := by simpa [ofStray] using hd
    rw [operator?_eq_none_of_isPrefix ho hc]
  | some kind =>
    rw [ho] at hd
    have hd : kind.spelling.toList ++ part = c :: ds := hd
    rw [operator?_of_isPrefix ho hc ⟨part, hd⟩]
    simp [← hd]

/-- A segment that is complete is cut off in the same way when only a part of the text behind it
is there. -/
theorem cut_again (hw : (cut c cs).1.Whole) (hp : part <+: (cut c cs).2)
    (hd : (cut c cs).1.text ++ part = c :: ds) : cut c ds = ((cut c cs).1, part) := by
  have hds : ds <+: cs := by
    have hpre := List.prefix_append_right_inj (cut c cs).1.text |>.2 hp
    rw [hd, cut_append] at hpre
    exact (List.cons_prefix_cons.1 hpre).2
  have hhead {d : Char} (hn : ¬ (c = '/' ∧ cs.head? = some d)) :
      ¬ (c = '/' ∧ ds.head? = some d) := by
    rintro ⟨rfl, hx⟩
    obtain ⟨ds, rfl⟩ := List.head?_eq_some_iff.1 hx
    obtain ⟨back, rfl⟩ := hds
    exact hn ⟨rfl, rfl⟩
  revert hw hp hd
  fun_cases cut c cs with
  | case1 hb =>
    intro _ hp hd
    rw [cut, if_pos hb]
    exact cutRun_again (fun _ => rfl) hp hd
  | case2 hb hl =>
    intro _ hp hd
    obtain ⟨rfl, hs⟩ : c = '/' ∧ cs.head? = some '/' := by simpa using hl
    obtain ⟨cs, rfl⟩ := List.head?_eq_some_iff.1 hs
    have hx : ds.head? = some '/' := by
      have hd : '/' :: (cs.takeWhile (· ≠ '\n') ++ part) = ds := by simpa [cutRun] using hd
      rw [← hd, List.head?_cons]
    rw [cut, if_neg hb, if_pos (by simp [hx])]
    exact cutRun_again (fun _ => rfl) hp hd
  | case3 _ _ hc =>
    intro hw _ hd
    obtain ⟨rfl, hs⟩ : c = '/' ∧ cs.head? = some '*' := by simpa using hc
    obtain ⟨cs, rfl⟩ := List.head?_eq_some_iff.1 hs
    obtain ⟨more, ht⟩ := exists_cutComment_text cs
    rw [List.tail_cons] at hw hd ⊢
    obtain rfl : '*' :: (more ++ part) = ds := by simpa [ht] using hd
    rw [cut_comment]
    exact cutComment_again hw hd
  | case4 _ _ _ hs =>
    intro hw _ hd
    subst hs
    rw [cut_string]
    exact cutString_again hw hd
  | case5 _ _ _ _ hq =>
    intro hw _ hd
    subst hq
    rw [cut_character]
    exact cutCharacter_again hw hd
  | case6 _ _ _ _ _ hn =>
    intro _ hp hd
    rw [cut_digit hn]
    exact cutRun_again (fun _ => rfl) hp hd
  | case7 _ _ _ _ _ _ hword =>
    intro _ hp hd
    rw [cut_word hword]
    exact cutRun_again ofWord_text hp hd
  | case8 hb hl hc hs hq hn hword =>
    intro _ _ hd
    have hl' : ¬ (c = '/' ∧ ds.head? = some '/') := hhead (by simpa using hl)
    have hc' : ¬ (c = '/' ∧ ds.head? = some '*') := hhead (by simpa using hc)
    rw [cut, if_neg hb, if_neg (by simpa using hl'), if_neg (by simpa using hc'), if_neg hs,
      if_neg hq, if_neg hn, if_neg hword]
    exact cutOperator_again hds hd

end

/-- The first segments of a text, if they are complete, are the segments of their own text. -/
theorem segments_flatMap {text : List Char} {front back : List Segment}
    (h : segments text = front ++ back) (hw : ∀ s ∈ front, s.Whole) :
    segments (front.flatMap (·.text)) = front := by
  induction front generalizing text with
  | nil => simp [segments]
  | cons s front ih =>
    obtain ⟨hs, hfront⟩ := List.forall_mem_cons.1 hw
    cases text with
    | nil => simp [segments] at h
    | cons c cs =>
      rw [segments_cons, List.cons_append] at h
      obtain ⟨rfl, hrest⟩ := List.cons.inj h
      obtain ⟨d, ds, ht⟩ := List.exists_cons_of_ne_nil (cut_text_ne_nil c cs)
      obtain rfl : c = d := by simpa [head?_cut_text] using congrArg List.head? ht
      have hp : front.flatMap (·.text) <+: (cut c cs).2 := by
        rw [← flatMap_segments (cut c cs).2, hrest, List.flatMap_append]
        exact List.prefix_append _ _
      have hcut := cut_again hs hp (by rw [ht, List.cons_append])
      rw [List.flatMap_cons, ht, List.cons_append, segments_cons, hcut, ih hrest hfront]

/-! ### Segments that are cut off -/

theorem whole_of_nil {s : Segment} (h : s.faults = []) : s.Whole := by simp [Whole, h]

/-- What is not complete goes on to the end of the text. Only in a character literal was something
else wrong before. -/
theorem cut_of_not_whole {c : Char} {cs : List Char} (h : ¬ (cut c cs).1.Whole) :
    ∃ before, cut c cs = unterminated (c :: cs) before ∧
      (before = [] ∨ ∃ offset found, before = [⟨offset, .malformedCharacter found⟩]) := by
  revert h
  fun_cases cut c cs with
  | case1 | case2 => exact fun h => absurd (whole_of_nil rfl) h
  | case3 _ _ hc =>
    obtain ⟨rfl, hs⟩ : c = '/' ∧ cs.head? = some '*' := by simpa using hc
    obtain ⟨cs, rfl⟩ := List.head?_eq_some_iff.1 hs
    rw [List.tail_cons, cutComment]
    split
    · exact fun h => absurd (whole_of_nil rfl) h
    · exact fun _ => ⟨[], rfl, .inl rfl⟩
  | case4 _ _ _ hs =>
    subst hs
    rw [cutString]
    split
    · exact fun h => absurd (whole_of_nil rfl) h
    · exact fun _ => ⟨[], rfl, .inl rfl⟩
  | case5 _ _ _ _ hq =>
    subst hq
    rw [cutCharacter]
    split
    · exact fun _ => ⟨[], rfl, .inl rfl⟩
    · exact fun _ => ⟨[], rfl, .inl rfl⟩
    · dsimp only
      split
      · exact fun h => absurd (whole_of_nil rfl) h
      · split
        · exact fun _ => ⟨_, rfl, .inr ⟨_, _, rfl⟩⟩
        · exact fun h => absurd (by simp [Whole]) h
  | case6 => exact fun h => absurd (by simp [Whole, cutRun, ofNumber]) h
  | case7 => exact fun h => absurd (whole_of_nil (ofWord_faults _)) h
  | case8 =>
    refine fun h => absurd ?_ h
    rw [cutOperator]
    split
    · exact whole_of_nil rfl
    · simp only [Whole, ofStray]
      split <;> simp

theorem Formed.unterminated {s : Segment} {rest : List Char} (h : s.Formed rest)
    (hr : s.role = .cutOff) : Unterminated s.text := by
  cases h with
  | cutOff _ hu => exact hu
  | _ => cases hr

/-- All segments of a text are complete, or all but the last, which nothing closes. -/
theorem segments_whole_or (text : List Char) :
    (∀ s ∈ segments text, s.Whole) ∨
      ∃ front piece before, segments text = front ++ [(unterminated piece before).1] ∧
        (∀ s ∈ front, s.Whole) ∧ Unterminated piece ∧
        (before = [] ∨ ∃ offset found, before = [⟨offset, .malformedCharacter found⟩]) := by
  fun_induction segments text with
  | case1 => exact .inl (by simp)
  | case2 c cs ih =>
    by_cases hw : (cut c cs).1.Whole
    · obtain hall | ⟨front, piece, before, hs, hfront, hrest⟩ := ih
      · exact .inl (List.forall_mem_cons.2 ⟨hw, hall⟩)
      · exact .inr ⟨(cut c cs).1 :: front, piece, before, by rw [hs, List.cons_append],
          List.forall_mem_cons.2 ⟨hw, hfront⟩, hrest⟩
    · obtain ⟨before, hcut, hbefore⟩ := cut_of_not_whole hw
      have hformed := cut_formed c cs
      rw [hcut] at hformed ⊢
      exact .inr ⟨[], c :: cs, before, by simp [unterminated, segments], by simp,
        hformed.unterminated rfl, hbefore⟩

theorem diagnostics_unterminated (file : String) (start : Place) (piece : List Char)
    (before : List Fault) :
    (unterminated piece before).1.diagnostics file start
      = before.map (fun f => ⟨f.cause, ⟨start.after (piece.take f.offset), file⟩⟩)
        ++ [⟨.unexpectedEndOfFile, ⟨start.after piece, file⟩⟩] := by
  simp [Segment.unterminated, diagnostics]

theorem Truthful.isFatal_eq_false {s : Segment} {after : List Char} (h : s.Truthful after)
    (hw : s.Whole) {f : Fault} (hf : f ∈ s.faults) : f.cause.isFatal = false := by
  have htells := h.tells f hf
  have hne := hw f hf
  obtain ⟨offset, cause⟩ := f
  cases cause with
  | unexpectedEndOfFile => exact absurd rfl hne
  | fileRead => exact htells.elim
  | _ => rfl

end Segment

/-- The source of which only the text `before` is there. -/
def Source.upTo (source : Source) (before : List Char) : Source :=
  ⟨source.name, String.ofList before⟩

namespace Scan

/-- The source stops inside of a construct that the scan meets behind the text `before`. Without the
construct the tokens are the same and nothing is fatal. With it there is a fatal diagnostic at the
end, and in front of it at most one for a character literal that goes on where it should close. -/
structure StopsInside (source : Source) (before : List Char) : Prop where
  met : ∃ s : Stage, (Stage.start source).Leads s ∧ s.behind = before
  unterminated : ∃ piece, source.text.toList = before ++ piece ∧ Segment.Unterminated piece
  quiet : ∀ d ∈ (ofSource (source.upTo before)).diagnostics, d.cause.isFatal = false
  tokens : (ofSource source).tokens.dropLast = (ofSource (source.upTo before)).tokens.dropLast
  diagnostics : ∃ malformed,
    (ofSource source).diagnostics = (ofSource (source.upTo before)).diagnostics ++ malformed
      ++ [⟨.unexpectedEndOfFile, (ofSource source).endToken.position⟩] ∧
    (malformed = [] ∨ ∃ found position, malformed = [⟨.malformedCharacter found, position⟩])

theorem isFatal_eq_false_of_whole {source : Source}
    (h : ∀ s ∈ Segment.segments source.text.toList, s.Whole) {d : Diagnostic}
    (hd : d ∈ (ofSource source).diagnostics) : d.cause.isFatal = false := by
  obtain ⟨before, s, after, hs, f, hf, rfl⟩ := exists_of_mem_diagnostics hd
  exact (Segment.segments_truthful hs).isFatal_eq_false (h s (by simp [hs])) hf

section

variable {source part : Source} {start : Place} {s : Segment}

theorem diagnostics_of_located
    (h : (ofSource source).located = (ofSource part).located ++ [(start, s)])
    (hn : part.name = source.name) :
    (ofSource source).diagnostics
      = (ofSource part).diagnostics ++ s.diagnostics source.name start := by
  have hfile (source : Source) : (ofSource source).file = source.name := rfl
  simp only [diagnostics, hfile, h, hn, List.flatMap_append, List.flatMap_singleton]

theorem tokens_of_located
    (h : (ofSource source).located = (ofSource part).located ++ [(start, s)])
    (hn : part.name = source.name) (hs : s.role = .cutOff) :
    (ofSource source).tokens.dropLast = (ofSource part).tokens.dropLast := by
  have hfile (source : Source) : (ofSource source).file = source.name := rfl
  have hnone : s.token? source.name start = none := by simp [Segment.token?, hs]
  simp [tokens, hfile, h, hn, hnone]

end

theorem quiet_or_stopsInside (source : Source) :
    (∀ d ∈ (ofSource source).diagnostics, d.cause.isFatal = false) ∨
      ∃ before, StopsInside source before := by
  obtain hall | ⟨front, piece, faults, hs, hfront, hu, hfaults⟩ :=
    Segment.segments_whole_or source.text.toList
  · exact .inl fun d => isFatal_eq_false_of_whole hall
  have htext : source.text.toList = front.flatMap (·.text) ++ piece := by
    rw [← Segment.flatMap_segments source.text.toList, hs]
    simp [Segment.unterminated]
  have hupTo : Segment.segments (source.upTo (front.flatMap (·.text))).text.toList = front := by
    rw [Source.upTo, String.toList_ofList]
    exact Segment.segments_flatMap hs hfront
  have hlocated : (ofSource source).located
      = (ofSource (source.upTo (front.flatMap (·.text)))).located
        ++ [(Place.start.after (front.flatMap (·.text)),
          (Segment.unterminated piece faults).1)] := by
    simp only [ofSource, hs, hupTo, Segment.locate_append, Segment.locate]
  have hdiagnostics := diagnostics_of_located hlocated rfl
  have hstop : (ofSource source).endToken.position
      = ⟨(Place.start.after (front.flatMap (·.text))).after piece, source.name⟩ := by
    rw [← Place.after_append, ← htext]
    rfl
  rw [Segment.diagnostics_unterminated, ← List.append_assoc, ← hstop] at hdiagnostics
  have hmet : ∃ s : Stage, (Stage.start source).Leads s ∧ s.behind = front.flatMap (·.text) :=
    (Stage.halfway_start source).leads_of_segments hs
  refine .inr ⟨front.flatMap (·.text), hmet, ⟨piece, htext, hu⟩, fun d => ?_, ?_, ?_⟩
  · exact isFatal_eq_false_of_whole (hupTo.symm ▸ hfront)
  · exact tokens_of_located hlocated rfl rfl
  · refine ⟨_, hdiagnostics, ?_⟩
    obtain rfl | ⟨offset, found, rfl⟩ := hfaults
    · exact .inl rfl
    · exact .inr ⟨found, _, rfl⟩

theorem StopsInside.filter_isFatal {source : Source} {before : List Char}
    (h : StopsInside source before) : (ofSource source).diagnostics.filter (·.cause.isFatal)
      = [⟨.unexpectedEndOfFile, (ofSource source).endToken.position⟩] := by
  obtain ⟨malformed, hd, hm⟩ := h.diagnostics
  have hquiet : (ofSource (source.upTo before)).diagnostics.filter (·.cause.isFatal) = [] :=
    List.filter_eq_nil_iff.2 fun d hd => by simp [h.quiet d hd]
  have hmalformed : malformed.filter (·.cause.isFatal) = [] := by
    obtain rfl | ⟨found, position, rfl⟩ := hm <;> rfl
  rw [hd, List.filter_append, List.filter_append, hquiet, hmalformed]
  rfl

/-- The steps of a scan end at the end of the source, with the tokens of the scan but for the end
token, which stands there. At most one diagnostic is fatal; it is the last one and stands there
too, and the source stops inside of a construct. -/
theorem ofSource_stops (source : Source) :
    (∃ last : Stage, (Stage.start source).Leads last ∧ last.next? = none ∧
      last.behind = source.text.toList ∧ last.ahead = [] ∧
      (∀ scanner : Scanner, scanner.source = source →
        scanner.scan = (ofSource source, last.toScanner)) ∧
      (ofSource source).tokens
        = last.tokens ++ [⟨.eof, "", ⟨.behind source.text.toList, source.name⟩⟩] ∧
      ∀ t ∈ last.tokens, t.kind ≠ .eof) ∧
    ((ofSource source).diagnostics.filter (·.cause.isFatal)).length ≤ 1 ∧
    ∀ d ∈ (ofSource source).diagnostics, d.cause.isFatal = true →
      (ofSource source).diagnostics.getLast? = some d ∧
      d.position = (ofSource source).endToken.position ∧
      ∃ before, StopsInside source before := by
  constructor
  · obtain ⟨last, hl, hn⟩ := Stage.exists_last (.start source)
    have hlast := Stage.halfway_of_leads hl
    have ha := hlast.ahead_of_none hn
    have hb := hlast.behind_of_nil ha
    have ht := hlast.tokens_of_nil ha
    rw [hlast.endToken_of_nil ha, hlast.position_of_nil ha] at ht
    refine ⟨last, hl, hn, hb, ha, fun scanner hs => ?_, ht, hlast.kinds⟩
    exact Prod.ext (congrArg ofSource hs) (hlast.scan ha hs)
  · obtain hquiet | ⟨before, hs⟩ := quiet_or_stopsInside source
    · have hnil : (ofSource source).diagnostics.filter (·.cause.isFatal) = [] :=
        List.filter_eq_nil_iff.2 fun d hd => by simp [hquiet d hd]
      refine ⟨by rw [hnil]; exact Nat.zero_le 1, fun d hd hfatal => ?_⟩
      rw [hquiet d hd] at hfatal
      cases hfatal
    · obtain ⟨malformed, hd, -⟩ := hs.diagnostics
      refine ⟨by rw [hs.filter_isFatal]; exact Nat.le_refl 1, fun d hmem hfatal => ?_⟩
      have hone : d ∈ (ofSource source).diagnostics.filter (·.cause.isFatal) :=
        List.mem_filter.2 ⟨hmem, hfatal⟩
      rw [hs.filter_isFatal, List.mem_singleton] at hone
      subst hone
      exact ⟨by rw [hd, List.getLast?_concat], rfl, before, hs⟩

/-- A stray character, and then a character literal that goes on where it should close and is cut
off there. -/
theorem ofSource_stops_literal :
    ⟨.unexpectedEndOfFile, ⟨⟨1, 10⟩, "t"⟩⟩ ∈ (ofSource ⟨"t", "é 'ab \"c"⟩).diagnostics ∧
      Cause.unexpectedEndOfFile.isFatal = true ∧
      (ofSource ⟨"t", "é 'ab \"c"⟩).diagnostics.getLast?
        = some ⟨.unexpectedEndOfFile, ⟨⟨1, 10⟩, "t"⟩⟩ ∧
      ∃ before, StopsInside ⟨"t", "é 'ab \"c"⟩ before := by
  have hmem : ⟨.unexpectedEndOfFile, ⟨⟨1, 10⟩, "t"⟩⟩
      ∈ (ofSource ⟨"t", "é 'ab \"c"⟩).diagnostics := by decide +kernel
  obtain ⟨-, -, hfatal⟩ := ofSource_stops ⟨"t", "é 'ab \"c"⟩
  obtain ⟨hlast, -, hbefore⟩ := hfatal _ hmem rfl
  exact ⟨hmem, rfl, hlast, hbefore⟩

end Scan

end FrontEnd
