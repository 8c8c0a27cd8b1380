import FrontEnd.Proofs.Layout

/-!
A scan goes on afresh behind a newline. A segment that is complete at the end of a text stays as it
is when a newline and more text follow, so what a scan finds in two texts with a newline between
them is what it finds in each, the second moved down by the lines of the first.
-/

set_option autoImplicit false

namespace FrontEnd

/-! ### Moving down -/

namespace Place

/-- The same column, `n` lines further down. -/
def down (n : Nat) (p : Place) : Place := ⟨p.line + n, p.column⟩

theorem step_down (n : Nat) (p : Place) (c : Char) : (p.down n).step c = (p.step c).down n := by
  unfold step down
  split
  · simp only [Place.mk.injEq, and_true]
    omega
  · rfl

theorem after_down (n : Nat) (p : Place) (cs : List Char) :
    (p.down n).after cs = (p.after cs).down n := by
  induction cs generalizing p with
  | nil => rfl
  | cons c cs ih => rw [after_cons, after_cons, step_down, ih]

/-- Behind a text and a newline, the first line is that many lines further down. -/
theorem start_after_newline (cs : List Char) :
    start.after (cs ++ ['\n']) = start.down (1 + cs.count '\n') := by
  rw [start_after, behind, Text.lastLine_newline]
  simp only [start, down, List.count_append, List.count_singleton_self, Text.bytes_nil,
    Place.mk.injEq, and_true]
  omega

end Place

def Position.down (n : Nat) (p : Position) : Position := ⟨p.toPlace.down n, p.file⟩

def Token.down (n : Nat) (t : Token) : Token := { t with position := t.position.down n }

def Diagnostic.down (n : Nat) (d : Diagnostic) : Diagnostic :=
  { d with position := d.position.down n }

namespace Segment

/-! ### Cutting in front of a newline -/

section

variable {c : Char} {cs body rest : List Char} (more : List Char)

theorem closeComment_before (h : closeComment cs = some (body, rest)) :
    closeComment (cs ++ more) = some (body, rest ++ more) := by
  fun_induction closeComment cs generalizing body rest with
  | case1 => simp at h
  | case2 =>
    simp only [Option.some.injEq, Prod.mk.injEq] at h
    obtain ⟨rfl, rfl⟩ := h
    rfl
  | case3 c cs hc ih =>
    obtain ⟨⟨body', rest'⟩, hb, he⟩ := Option.map_eq_some_iff.1 h
    simp only [Prod.mk.injEq] at he
    obtain ⟨rfl, rfl⟩ := he
    rw [List.cons_append, closeComment]
    · rw [ih hb]
      rfl
    · rintro ds rfl hds
      cases cs with
      | nil => simp [closeComment] at hb
      | cons d cs =>
        obtain ⟨rfl, rfl⟩ := List.cons.inj hds
        exact hc cs rfl rfl

theorem closeString_before {escaped : Bool} (h : closeString escaped cs = some (body, rest)) :
    closeString escaped (cs ++ more) = some (body, rest ++ more) := by
  fun_induction closeString escaped cs generalizing body rest with
  | case1 => simp at h
  | case2 escaped c cs hc =>
    simp only [Option.some.injEq, Prod.mk.injEq] at h
    obtain ⟨rfl, rfl⟩ := h
    rw [List.cons_append, closeString, if_pos hc]
  | case3 escaped c cs hc ih =>
    obtain ⟨⟨body', rest'⟩, hb, he⟩ := Option.map_eq_some_iff.1 h
    simp only [Prod.mk.injEq] at he
    obtain ⟨rfl, rfl⟩ := he
    rw [List.cons_append, closeString, if_neg hc, ih hb]
    rfl

theorem closeQuote_before (h : closeQuote cs = some (body, rest)) :
    closeQuote (cs ++ more) = some (body, rest ++ more) := by
  fun_induction closeQuote cs generalizing body rest with
  | case1 => simp at h
  | case2 cs =>
    simp only [Option.some.injEq, Prod.mk.injEq] at h
    obtain ⟨rfl, rfl⟩ := h
    rfl
  | case3 c cs hc ih =>
    obtain ⟨⟨body', rest'⟩, hb, he⟩ := Option.map_eq_some_iff.1 h
    simp only [Prod.mk.injEq] at he
    obtain ⟨rfl, rfl⟩ := he
    rw [List.cons_append, closeQuote, if_neg hc, ih hb]
    rfl

theorem characterBody_before (h : characterBody cs = some (body, rest)) :
    characterBody (cs ++ more) = some (body, rest ++ more) := by
  fun_cases characterBody cs with
  | case1 => simp [characterBody] at h
  | case2 => simp [characterBody] at h
  | case3 d ds =>
    simp only [characterBody, Option.some.injEq, Prod.mk.injEq] at h
    obtain ⟨rfl, rfl⟩ := h
    rfl
  | case4 d ds h₁ h₂ =>
    simp only [characterBody, Option.some.injEq, Prod.mk.injEq] at h
    obtain ⟨rfl, rfl⟩ := h
    cases ds <;> simp_all [characterBody]

/-- Nothing in the segment is cut off by the end of the text. -/
def Whole (s : Segment) : Prop := ∀ f ∈ s.faults, f.cause ≠ .unexpectedEndOfFile

theorem not_whole_unterminated (text : List Char) (before : List Fault) :
    ¬ (unterminated text before).1.Whole := by
  intro h
  exact h ⟨text.length, .unexpectedEndOfFile⟩ (by simp [unterminated]) rfl

theorem cutComment_before (h : (cutComment cs).1.Whole) :
    cutComment (cs ++ more) = ((cutComment cs).1, (cutComment cs).2 ++ more) := by
  unfold cutComment at *
  cases hc : closeComment cs with
  | none =>
    rw [hc] at h
    exact absurd h (not_whole_unterminated _ _)
  | some split => rw [closeComment_before more hc]

theorem cutString_before (h : (cutString cs).1.Whole) :
    cutString (cs ++ more) = ((cutString cs).1, (cutString cs).2 ++ more) := by
  unfold cutString at *
  cases hc : closeString false cs with
  | none =>
    rw [hc] at h
    exact absurd h (not_whole_unterminated _ _)
  | some split => rw [closeString_before more hc]

theorem cutCharacter_before (h : (cutCharacter cs).1.Whole) :
    cutCharacter (cs ++ more) = ((cutCharacter cs).1, (cutCharacter cs).2 ++ more) := by
  unfold cutCharacter at *
  cases hc : characterBody cs with
  | none =>
    rw [hc] at h
    exact absurd h (not_whole_unterminated _ _)
  | some split =>
    obtain ⟨body, rest⟩ := split
    rw [hc] at h
    cases rest with
    | nil => exact absurd h (not_whole_unterminated _ _)
    | cons c rest =>
      rw [characterBody_before more hc]
      dsimp only [List.cons_append] at h ⊢
      by_cases hq : c = '\''
      · simp [hq]
      · simp only [hq, if_false] at h ⊢
        cases hs : closeQuote rest with
        | none =>
          rw [hs] at h
          exact absurd h (not_whole_unterminated _ _)
        | some skipped => rw [closeQuote_before more hs]

end

section

variable (c : Char) (cs more : List Char)

theorem cutRun_before {segment : List Char → Segment} {inRun : Char → Bool}
    (h : inRun '\n' = false) : cutRun segment inRun c (cs ++ '\n' :: more)
      = ((cutRun segment inRun c cs).1, (cutRun segment inRun c cs).2 ++ '\n' :: more) := by
  have hrun : (cs ++ '\n' :: more).takeWhile inRun = cs.takeWhile inRun ∧
      (cs ++ '\n' :: more).dropWhile inRun = cs.dropWhile inRun ++ '\n' :: more := by
    induction cs with
    | nil => simp [h]
    | cons d cs ih => by_cases hd : inRun d <;> simp [hd, ih]
  rw [cutRun, hrun.1, hrun.2]
  rfl

theorem cutOperator_before : cutOperator c (cs ++ '\n' :: more)
    = ((cutOperator c cs).1, (cutOperator c cs).2 ++ '\n' :: more) := by
  have hb : ∀ k ∈ TokenKind.operators, k.spelling.toList.any Text.isBlank = false := by decide
  have hp : TokenKind.operator? (c :: (cs ++ '\n' :: more)) = TokenKind.operator? (c :: cs) := by
    refine List.find?_congr fun k hk => ?_
    rw [Bool.eq_iff_iff, List.isPrefixOf_iff_prefix, List.isPrefixOf_iff_prefix, ← List.cons_append]
    exact prefix_append_iff (List.any_eq_false.1 (hb k hk)) (by simp [Parted, Text.isBlank])
  unfold cutOperator
  rw [hp]
  cases ho : TokenKind.operator? (c :: cs) with
  | none => rfl
  | some kind =>
    have hle := (operator?_isPrefix ho).length_le
    dsimp only
    rw [← List.cons_append, List.drop_append_of_le_length hle]

variable {c cs}

/-- A segment that is no blank ends before a newline. -/
theorem cut_before (hb : ¬ Text.isBlank c) (h : (cut c cs).1.Whole) :
    cut c (cs ++ '\n' :: more) = ((cut c cs).1, (cut c cs).2 ++ '\n' :: more) := by
  have hhead (d : Char) (hd : d ≠ '\n') :
      decide ((cs ++ '\n' :: more).head? = some d) = decide (cs.head? = some d) := by
    cases cs with
    | nil => simpa using Ne.symm hd
    | cons e cs => rfl
  unfold cut at *
  rw [if_neg hb] at h
  rw [hhead '/' (by decide), hhead '*' (by decide), if_neg hb, if_neg hb]
  split at h <;> rename_i hline
  · rw [if_pos hline, if_pos hline]
    exact cutRun_before c cs more (by decide)
  · rw [if_neg hline, if_neg hline]
    split at h <;> rename_i hblock
    · rw [if_pos hblock, if_pos hblock]
      have ht : (cs ++ '\n' :: more).tail = cs.tail ++ '\n' :: more := by
        cases cs with
        | nil => simp at hblock
        | cons d cs => rfl
      rw [ht]
      exact cutComment_before _ h
    · rw [if_neg hblock, if_neg hblock]
      split at h <;> rename_i hs
      · rw [if_pos hs, if_pos hs]
        exact cutString_before _ h
      · rw [if_neg hs, if_neg hs]
        split at h <;> rename_i hq
        · rw [if_pos hq, if_pos hq]
          exact cutCharacter_before _ h
        · rw [if_neg hq, if_neg hq]
          split
          · exact cutRun_before c cs more (by decide)
          · split
            · exact cutRun_before c cs more (by decide)
            · exact cutOperator_before c cs more

end

/-! ### What a text holds -/

/-- The tokens and the diagnostics of a text that starts at `start`. -/
def found (file : String) (start : Place) (text : List Char) : List Token × List Diagnostic :=
  ((locate start (segments text)).filterMap fun (p, s) => s.token? file p,
    (locate start (segments text)).flatMap fun (p, s) => s.diagnostics file p)

section

variable (file : String) (start : Place)

theorem found_cons (c : Char) (cs : List Char) :
    let s := (cut c cs).1
    let rest := found file (start.after s.text) (cut c cs).2
    found file start (c :: cs) =
      ((s.token? file start).toList ++ rest.1, s.diagnostics file start ++ rest.2) := by
  dsimp only
  rw [found, segments_cons, locate, List.filterMap_cons, List.flatMap_cons]
  dsimp only
  cases (cut c cs).1.token? file start <;> rfl

/-- A blank in front is passed over. -/
theorem found_blank {c : Char} (hc : Text.isBlank c) (cs : List Char) :
    found file start (c :: cs) = found file (start.step c) cs := by
  have hrun (start : Place) (d : Char) (ds : List Char) (hd : Text.isBlank d) :
      found file start (d :: ds) = found file ((start.step d).after (ds.takeWhile Text.isBlank))
        (ds.dropWhile Text.isBlank) := by
    have hcut : cut d ds = cutRun (⟨·, .blank, []⟩) Text.isBlank d ds := by simp [cut, hd]
    rw [found_cons, hcut]
    rfl
  rw [hrun start c cs hc]
  cases cs with
  | nil => rfl
  | cons d ds =>
    by_cases hd : Text.isBlank d
    · rw [hrun _ d ds hd, List.takeWhile_cons_of_pos hd, List.dropWhile_cons_of_pos hd,
        Place.after_cons]
    · rw [List.takeWhile_cons_of_neg hd, List.dropWhile_cons_of_neg hd, Place.after_nil]

/-- Behind a whole text and a newline, a scan goes on with the text that follows. -/
theorem found_newline (start : Place) (cs more : List Char)
    (h : ∀ d ∈ (found file start cs).2, d.cause ≠ .unexpectedEndOfFile) :
    found file start (cs ++ '\n' :: more) =
      ((found file start cs).1 ++ (found file (start.after (cs ++ ['\n'])) more).1,
        (found file start cs).2 ++ (found file (start.after (cs ++ ['\n'])) more).2) := by
  match cs, h with
  | [], _ =>
    rw [List.nil_append, found_blank file start (by decide)]
    simp [found, segments, locate]
  | c :: cs, h =>
    by_cases hc : Text.isBlank c
    · rw [found_blank file start hc] at h
      rw [List.cons_append, found_blank file start hc, found_blank file start hc,
        found_newline (start.step c) cs more h]
      rfl
    · rw [found_cons] at h
      have hw : (cut c cs).1.Whole := by
        intro f hf
        exact h _ (List.mem_append_left _ (List.mem_map_of_mem hf))
      have hr := fun d hd => h d (List.mem_append_right _ hd)
      have hl := cut_length_le c cs
      have ha : (start.after (cut c cs).1.text).after ((cut c cs).2 ++ ['\n'])
          = start.after (c :: cs ++ ['\n']) := by
        rw [← cut_append c cs, List.append_assoc, ← Place.after_append]
      rw [List.cons_append, found_cons, found_cons, cut_before more hc hw,
        found_newline (start.after (cut c cs).1.text) (cut c cs).2 more hr, ha]
      simp only [List.append_assoc, List.cons_append]
termination_by cs.length
decreasing_by
  · simp
  · simp only [List.length_cons]
    omega

theorem found_down (n : Nat) (text : List Char) :
    found file (start.down n) text =
      ((found file start text).1.map (·.down n), (found file start text).2.map (·.down n)) := by
  unfold found
  induction segments text generalizing start with
  | nil => rfl
  | cons s rest ih =>
    have ht : s.token? file (start.down n) = (s.token? file start).map (·.down n) := by
      unfold token?
      split <;> rfl
    have hd : s.diagnostics file (start.down n) = (s.diagnostics file start).map (·.down n) := by
      simp only [diagnostics, List.map_map, Place.after_down]
      rfl
    have hi := ih (start.after s.text)
    rw [← Place.after_down, Prod.mk.injEq] at hi
    simp only [locate, List.filterMap_cons, List.flatMap_cons, ht, hd, hi, List.map_append]
    cases s.token? file start <;> rfl

end

end Segment

namespace Scan

theorem tokens_eq_found (source : Source) : (ofSource source).tokens =
    (Segment.found source.name .start source.text.toList).1 ++
      [⟨.eof, "", ⟨Place.start.after source.text.toList, source.name⟩⟩] := rfl

/-- The scan of two texts with a newline between them is the scan of the first, without its end
token, and behind it the scan of the second, moved down by the lines of the first; nothing of the
first may be cut off at its end. -/
theorem ofSource_newline (name a b : String)
    (h : ∀ d ∈ (ofSource ⟨name, a⟩).diagnostics, d.cause ≠ .unexpectedEndOfFile) :
    (ofSource ⟨name, a ++ "\n" ++ b⟩).tokens =
        (ofSource ⟨name, a⟩).tokens.dropLast ++
          (ofSource ⟨name, b⟩).tokens.map (·.down (1 + a.toList.count '\n')) ∧
      (ofSource ⟨name, a ++ "\n" ++ b⟩).diagnostics =
        (ofSource ⟨name, a⟩).diagnostics ++
          (ofSource ⟨name, b⟩).diagnostics.map (·.down (1 + a.toList.count '\n')) := by
  have htext : (a ++ "\n" ++ b).toList = a.toList ++ '\n' :: b.toList := by simp
  have hfound := Segment.found_newline name .start a.toList b.toList h
  rw [Place.start_after_newline, Segment.found_down, ← htext] at hfound
  have hstop : Place.start.after (a ++ "\n" ++ b).toList =
      (Place.start.after b.toList).down (1 + a.toList.count '\n') := by
    rw [htext, ← List.singleton_append, ← List.append_assoc, Place.after_append,
      Place.start_after_newline, Place.after_down]
  constructor
  · rw [tokens_eq_found, tokens_eq_found, tokens_eq_found, List.dropLast_concat, List.map_append,
      ← List.append_assoc]
    dsimp only
    rw [hfound, hstop]
    rfl
  · exact congrArg Prod.snd hfound

/-- A number with a point too many and a comment at the end of the text, then a text that stops
inside of a string. -/
theorem ofSource_newline_comment :
    (∀ d ∈ (ofSource ⟨"t", "1.2.3 // y"⟩).diagnostics, d.cause ≠ .unexpectedEndOfFile) ∧
      (ofSource ⟨"t", "1.2.3 // y" ++ "\n" ++ "z \"w"⟩).tokens =
        [⟨.realNumber, "1.2", ⟨⟨1, 1⟩, "t"⟩⟩, ⟨.identifier, "z", ⟨⟨2, 1⟩, "t"⟩⟩,
          ⟨.eof, "", ⟨⟨2, 5⟩, "t"⟩⟩] ∧
      (ofSource ⟨"t", "1.2.3 // y" ++ "\n" ++ "z \"w"⟩).diagnostics =
        [⟨.tooManyDecimalPoints "1.2.3", ⟨⟨1, 4⟩, "t"⟩⟩,
          ⟨.unexpectedEndOfFile, ⟨⟨2, 5⟩, "t"⟩⟩] := by
  have h : ∀ d ∈ (ofSource ⟨"t", "1.2.3 // y"⟩).diagnostics, d.cause ≠ .unexpectedEndOfFile := by
    decide +kernel
  obtain ⟨ht, hd⟩ := ofSource_newline "t" "1.2.3 // y" "z \"w" h
  exact ⟨h, ht.trans (by decide +kernel), hd.trans (by decide +kernel)⟩

end Scan

end FrontEnd
