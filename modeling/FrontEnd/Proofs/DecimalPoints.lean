import FrontEnd.Proofs.LongestMatch

/-!
The decimal points of a number. A number is a run of digits and points that goes on as far as it
can. Its token keeps the text in front of the second point, and each point behind the first one is
reported where it stands. So a number with one point too many is reported once, and one with more
of them as often as there are.
-/

set_option autoImplicit false

namespace FrontEnd

namespace Segment

/-! ### Points behind the first one -/

theorem length_extraPoints (seen : Bool) (offset : Nat) (cs : List Char) :
    (extraPoints seen offset cs).length = cs.count '.' - (!seen).toNat := by
  fun_induction extraPoints seen offset cs with
  | case1 => simp
  | case2 offset cs ih => simp [ih]
  | case3 seen offset cs hs ih => simp_all
  | case4 seen offset c cs hc ih => rw [ih, List.count_cons_of_ne hc]

/-- The points are found in order: as many as there are in front of a point, but for the first one,
are found before it. -/
theorem getElem?_extraPoints {seen : Bool} {front : List Char} (h : seen = false → '.' ∈ front)
    (offset : Nat) (back : List Char) :
    (extraPoints seen offset (front ++ '.' :: back))[front.count '.' - (!seen).toNat]?
      = some (offset + front.length) := by
  induction front generalizing seen offset with
  | nil =>
    cases seen with
    | false => exact absurd (h rfl) List.not_mem_nil
    | true => rfl
  | cons c front ih =>
    by_cases hc : c = '.'
    · subst hc
      have hi := ih (fun h : true = false => by cases h) (offset + 1)
      cases seen <;> simpa [extraPoints, Nat.add_assoc, Nat.add_comm 1] using hi
    · have hi := ih (fun hs => (List.mem_cons.1 (h hs)).resolve_left (Ne.symm hc)) (offset + 1)
      rw [List.cons_append, extraPoints, if_neg hc, List.count_cons_of_ne hc, hi,
        List.length_cons, Nat.add_assoc, Nat.add_comm 1]

theorem exists_second_point {cs : List Char} (h : 2 ≤ cs.count '.') :
    ∃ whole fraction more, cs = whole ++ '.' :: fraction ++ '.' :: more ∧ '.' ∉ whole ∧
      '.' ∉ fraction := by
  have hfirst : '.' ∈ cs := List.count_pos_iff.1 (by omega)
  obtain ⟨whole, tail, rfl, hw⟩ := List.eq_append_cons_of_mem hfirst
  rw [List.count_append, List.count_eq_zero.2 hw, List.count_cons_self] at h
  have hsecond : '.' ∈ tail := List.count_pos_iff.1 (by omega)
  obtain ⟨fraction, more, rfl, hf⟩ := List.eq_append_cons_of_mem hsecond
  exact ⟨whole, fraction, more, by simp, hw, hf⟩

/-! ### What is made of a number -/

/-- The number `run` behind the text `before` has a token with the text `value`, and `reports` are
made of it: one for each point behind the first, in order. -/
structure Reported (name : String) (before run value : List Char) (reports : List Diagnostic) :
    Prop where
  whole : run.count '.' < 2 → value = run
  front : ∀ whole fraction more, run = whole ++ '.' :: fraction ++ '.' :: more → '.' ∉ whole →
    '.' ∉ fraction → value = whole ++ '.' :: fraction
  number : reports.length = run.count '.' - 1
  each : ∀ front back, run = front ++ '.' :: back → '.' ∈ front →
    reports[front.count '.' - 1]? = some
      ⟨.tooManyDecimalPoints (String.ofList run), ⟨.behind (before ++ front), name⟩⟩

/-- A number with more than one point is reported once, at the second. -/
structure ReportedOnce (name : String) (before run value : List Char)
    (reports : List Diagnostic) : Prop where
  whole : run.count '.' < 2 → value = run ∧ reports = []
  front : ∀ whole fraction more, run = whole ++ '.' :: fraction ++ '.' :: more → '.' ∉ whole →
    '.' ∉ fraction → value = whole ++ '.' :: fraction ∧ reports =
      [⟨.tooManyDecimalPoints (String.ofList run),
        ⟨.behind (before ++ (whole ++ '.' :: fraction)), name⟩⟩]

theorem Reported.reportedOnce_iff {name : String} {before run value : List Char}
    {reports : List Diagnostic} (h : Reported name before run value reports) :
    ReportedOnce name before run value reports ↔ run.count '.' ≤ 2 := by
  have hnumber := h.number
  constructor
  · intro ho
    by_contra hlt
    have htwo : 2 ≤ run.count '.' := by omega
    obtain ⟨whole, fraction, more, hrun, hw, hf⟩ := exists_second_point htwo
    rw [(ho.front whole fraction more hrun hw hf).2, List.length_singleton] at hnumber
    omega
  · intro hle
    constructor
    · intro hlt
      exact ⟨h.whole hlt, List.eq_nil_of_length_eq_zero (by omega)⟩
    · intro whole fraction more hrun hw hf
      have hcount : (whole ++ '.' :: fraction).count '.' = 1 := by
        simp [List.count_eq_zero.2 hw, List.count_eq_zero.2 hf]
      have hlength : reports.length = 1 := by
        rw [hrun, List.count_append, hcount, List.count_cons_self] at hnumber hle
        omega
      obtain ⟨report, rfl⟩ := List.length_eq_one_iff.1 hlength
      have heach := h.each _ _ hrun (by simp)
      rw [hcount] at heach
      exact ⟨h.front whole fraction more hrun hw hf, by rw [Option.some.inj heach]⟩

/-- Digits and points without a point are digits. -/
theorem isDigit_of_point_not_mem {cs : List Char} (h : ∀ c ∈ cs, isNumberChar c)
    (hp : '.' ∉ cs) : ∀ c ∈ cs, Number.isDigit c := by
  intro c hc
  have hne : c ≠ '.' := ne_of_mem_of_not_mem hc hp
  simpa [isNumberChar, hne] using h c hc

theorem numberValue_eq_self {seen : Bool} {cs : List Char} (h : cs.count '.' + seen.toNat < 2) :
    numberValue seen cs = cs := by
  fun_induction numberValue seen cs with
  | case1 => rfl
  | case2 cs =>
    simp only [List.count_cons_self, Bool.toNat_true] at h
    omega
  | case3 seen cs hs ih =>
    simp_all
  | case4 seen c cs hc ih =>
    rw [List.count_cons_of_ne hc] at h
    rw [ih h]

theorem numberValue_of_points {run whole fraction more : List Char}
    (h : ∀ c ∈ run, isNumberChar c) (hrun : run = whole ++ '.' :: fraction ++ '.' :: more)
    (hw : '.' ∉ whole) (hf : '.' ∉ fraction) :
    numberValue false run = whole ++ '.' :: fraction := by
  subst hrun
  have hwhole := isDigit_of_point_not_mem (fun c hc => h c (by simp [hc])) hw
  have hfraction := isDigit_of_point_not_mem (fun c hc => h c (by simp [hc])) hf
  simp [numberValue_append hwhole, numberValue_append hfraction, numberValue]

theorem ofNumber_reported (name : String) (before : List Char) {run : List Char}
    (h : ∀ c ∈ run, isNumberChar c) :
    Reported name before run (numberValue false run)
      ((ofNumber run).diagnostics name (.behind before)) where
  whole hlt := numberValue_eq_self hlt
  front _ _ _ hrun hw hf := numberValue_of_points h hrun hw hf
  number := by
    rw [diagnostics, List.length_map, ofNumber, List.length_map, length_extraPoints]
    rfl
  each front back hrun hf := by
    have hpoint := getElem?_extraPoints (fun _ : false = false => hf) 0 back
    have htake : run.take front.length = front := by rw [hrun, List.take_left]
    rw [← hrun, Nat.zero_add] at hpoint
    rw [diagnostics, List.getElem?_map, ofNumber, List.getElem?_map,
      show (extraPoints false 0 run)[front.count '.' - 1]? = some front.length from hpoint,
      Option.map_some, Option.map_some, htake, ← Place.behind_append]

end Segment

namespace Stage

variable {source : Source} {s : Stage} {run rest : List Char}

/-- A step that meets a number takes the whole run of digits and points, which cannot be made
longer: digits in front of it from which it could start are inside of words. The step pushes one
token, with the text in front of the second point, and reports each point behind the first one. The
number is reported once, if it has more than one point, exactly if it has no more than two. -/
theorem next?_of_digitRun (hl : (start source).Leads s) (ha : s.ahead = run ++ rest)
    (hr : Segment.DigitRun run rest) :
    Segment.NumberRun s.behind run rest ∧
    ∃ t value reports, s.next? = some t ∧ t.behind = s.behind ++ run ∧ t.ahead = rest ∧
      t.tokens = s.tokens ++ [⟨if '.' ∈ run then .realNumber else .integer, String.ofList value,
        ⟨.behind s.behind, source.name⟩⟩] ∧
      t.tokens <+: (Scan.ofSource source).tokens ∧
      t.diagnostics = s.diagnostics ++ reports ∧
      t.diagnostics <+: (Scan.ofSource source).diagnostics ∧
      Segment.Reported source.name s.behind run value reports ∧
      (Segment.ReportedOnce source.name s.behind run value reports ↔ run.count '.' ≤ 2) := by
  have hs := halfway_of_leads hl
  obtain ⟨c, hhead, hd⟩ := hr.digit
  obtain ⟨cs, rfl⟩ : ∃ cs, run = c :: cs := List.head?_eq_some_iff.1 hhead
  have hinside := fun d hd => hr.inside d (List.mem_cons_of_mem c hd)
  have hcut : Segment.cut c (cs ++ rest) = (Segment.ofNumber (c :: cs), rest) := by
    rw [Segment.cut_digit hd, Segment.cutRun_of_stop hinside hr.stop]
  rw [List.cons_append] at ha
  obtain ⟨t, ht, hc⟩ := hs.exists_next? ha
  have hnext := hs.next ht
  have hplace : s.place = .behind s.behind := congrArg Position.toPlace hs.position
  obtain ⟨-, hbehind, hahead, hdiagnostics, htokens⟩ := hc
  rw [hcut] at hbehind hahead hdiagnostics htokens
  rw [hplace, hs.origin] at hdiagnostics htokens
  have hreported := Segment.ofNumber_reported source.name s.behind hr.inside
  refine ⟨?_, t, _, _, ht, hbehind, hahead, ?_, ?_, hdiagnostics, ?_, hreported,
    hreported.reportedOnce_iff⟩
  · obtain ⟨front, hsegments, hfront⟩ := exists_segments hl
    have hrest := Segment.flatMap_segments rest
    rw [ha, Segment.segments_cons, hcut] at hsegments
    have hrun := Segment.numberRun_of_segments hsegments (by rw [hrest]; exact hr)
    rwa [hfront, hrest] at hrun
  · rw [htokens]
    simp [Segment.token?, Segment.ofNumber]
  · rw [hnext.tokens, List.append_assoc]
    exact List.prefix_append _ _
  · rw [hnext.diagnostics]
    exact List.prefix_append _ _

/-- A number with a point too many, at the start of a text. -/
theorem next?_of_digitRun_twoPoints :
    (start ⟨"t", "1..2 x"⟩).Leads (start ⟨"t", "1..2 x"⟩) ∧
      Segment.DigitRun ['1', '.', '.', '2'] [' ', 'x'] ∧
      ∃ t, (start ⟨"t", "1..2 x"⟩).next? = some t ∧ t.ahead = [' ', 'x'] ∧
        t.tokens = [⟨.realNumber, "1.", ⟨⟨1, 1⟩, "t"⟩⟩] ∧
        t.diagnostics = [⟨.tooManyDecimalPoints "1..2", ⟨⟨1, 3⟩, "t"⟩⟩] := by
  have hr : Segment.DigitRun ['1', '.', '.', '2'] [' ', 'x'] :=
    ⟨⟨'1', rfl, by decide⟩, List.all_eq_true.1 (by decide), fun _ hc => by cases hc; decide⟩
  have hl : (start ⟨"t", "1..2 x"⟩).Leads (start ⟨"t", "1..2 x"⟩) := .refl
  obtain ⟨-, t, value, reports, ht, -, hahead, htokens, -, hdiagnostics, -, -, honce⟩ :=
    next?_of_digitRun hl rfl hr
  obtain ⟨rfl, rfl⟩ := (honce.2 (by decide)).front ['1'] [] ['2'] rfl (by decide) (by decide)
  exact ⟨hl, hr, t, ht, hahead, htokens, hdiagnostics⟩

/-- With one more point, a number is reported twice. -/
theorem threePoints_not_reportedOnce :
    ∃ t, (start ⟨"<source>", "1.2.3.4"⟩).next? = some t ∧ t.ahead = [] ∧
      t.tokens = [⟨.realNumber, "1.2", ⟨⟨1, 1⟩, "<source>"⟩⟩] ∧
      t.diagnostics = [⟨.tooManyDecimalPoints "1.2.3.4", ⟨⟨1, 4⟩, "<source>"⟩⟩,
        ⟨.tooManyDecimalPoints "1.2.3.4", ⟨⟨1, 6⟩, "<source>"⟩⟩] ∧
      t.diagnostics = (Scan.ofSource ⟨"<source>", "1.2.3.4"⟩).diagnostics ∧
      ¬ Segment.ReportedOnce "<source>" [] ['1', '.', '2', '.', '3', '.', '4'] ['1', '.', '2']
        t.diagnostics := by
  have hs := halfway_start ⟨"<source>", "1.2.3.4"⟩
  have ha : (start ⟨"<source>", "1.2.3.4"⟩).ahead = '1' :: ['.', '2', '.', '3', '.', '4'] := rfl
  obtain ⟨t, ht, hc⟩ := hs.exists_next? ha
  have hahead : t.ahead = [] := hc.ahead.trans (by decide +kernel)
  have hdiagnostics := hc.diagnostics.trans
    (show _ = [⟨.tooManyDecimalPoints "1.2.3.4", ⟨⟨1, 4⟩, "<source>"⟩⟩,
      ⟨.tooManyDecimalPoints "1.2.3.4", ⟨⟨1, 6⟩, "<source>"⟩⟩] by decide +kernel)
  refine ⟨t, ht, hahead, hc.tokens.trans (by decide +kernel), hdiagnostics,
    ((hs.next ht).diagnostics_of_nil hahead).symm, fun ho => ?_⟩
  have hone := (ho.front ['1'] ['2'] ['3', '.', '4'] rfl (by decide) (by decide)).2
  rw [hdiagnostics] at hone
  exact absurd (congrArg List.length hone) (by decide)

end Stage

end FrontEnd
