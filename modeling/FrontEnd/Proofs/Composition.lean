import FrontEnd.Proofs.Acceptance

/-!
Parsing one token list behind another. Where the first is a file of its own, the second is parsed
as if it stood alone: its statements come behind those of the first, and its diagnostics are the
only ones. The one thing that a statement looks for behind its own end is an `else`.
-/

set_option autoImplicit false

namespace FrontEnd.Grammar

/-! ### What a program reads behind its first tokens -/

/-- Behind the tokens `w`, which come to the statements `b` and the failures `fs`, a program goes
on with `rest`. -/
def Precedes (w : List Token) (b : List Stmt) (fs : List Failure) (rest : List Token) : Prop :=
  (program .standard (w ++ rest)).file = b ++ (program .standard rest).file ∧
    faults (program .standard (w ++ rest)).events =
      fs ++ faults (program .standard rest).events

/-- One statement, read or recovered from, in front of a program. -/
theorem precedes_of_recover {w rest : List Token} {b : List Stmt} {fs : List Failure}
    (hk : headKind w ∉ [.eof, .semicolon])
    (hb : (statement .standard (w ++ rest)).recover.statement?.toList = b)
    (hf : faults (statement .standard (w ++ rest)).recover.events = fs)
    (hr : (statement .standard (w ++ rest)).recover.rest = rest) : Precedes w b fs rest := by
  simp only [List.mem_cons, List.not_mem_nil, or_false, not_or] at hk
  have hhead : headKind (w ++ rest) = headKind w := headKind_append rest hk.1
  have hskip : skipSemicolons (w ++ rest) = w ++ rest :=
    skipSemicolons_of_ne (by rw [hhead]; exact hk.2)
  have he : headKind (skipSemicolons (w ++ rest)) ≠ .eof := by
    rw [hskip, hhead]
    exact hk.1
  rw [Precedes, program_of_statement he, hskip]
  dsimp only
  rw [faults_append, hb, hf, hr]
  exact ⟨rfl, rfl⟩

/-- A sequence of statements has no failures, and a program goes on behind it. -/
theorem Forms.precedes {w rest : List Token} {b : List Stmt} (h : Forms .sequence w b)
    (hr : headKind rest ≠ .kwElse) : Precedes w b [] rest := by
  cases h with
  | nil => exact ⟨rfl, rfl⟩
  | @stray s w b hs h =>
    have ih := h.precedes hr
    unfold Precedes at ih ⊢
    rwa [List.cons_append, program_cons_semicolon hs]
  | @cons w v s b hw hv =>
    have hk := hw.headKind_statement
    simp only [List.mem_cons, List.not_mem_nil, or_false, not_or] at hk
    have hlt : v.length < (w ++ v).length := by
      cases w with
      | nil => simp at hk
      | cons t w =>
        rw [List.length_append, List.length_cons]
        omega
    have hv' : headKind (v ++ rest) ≠ .kwElse := by
      have := hv.headKind_sequence
      cases v <;> simp_all
    obtain ⟨h₁, h₂, h₃⟩ := (hw.isRead (v ++ rest) hv').recover
    obtain ⟨hfile, hfaults⟩ : Precedes w [s] [] (v ++ rest) :=
      precedes_of_recover (by simp [hk]) (by rw [h₁]; rfl) (faults_eq_nil_iff.2 h₃) h₂
    obtain ⟨hfile', hfaults'⟩ := hv.precedes hr
    rw [Precedes, List.append_assoc, hfile, hfaults, hfile', hfaults']
    exact ⟨rfl, rfl⟩
termination_by w.length

/-! ### Diagnostics -/

theorem parse_snd (ts : List Token) :
    (parse ts).2 = (faults (program .standard ts).events).map (Failure.diagnostic (endToken ts)) :=
  filterMap_diagnostic? _ _

theorem endToken_append (w : List Token) {ts : List Token} (h : ts ≠ []) :
    endToken (w ++ ts) = endToken ts := by
  rw [endToken, endToken, List.getLast?_append, List.getLast?_eq_some_getLast h, Option.some_or]

/-- Failures in front of a program are diagnosed where they are blamed, and those of the program
as if it stood alone. -/
theorem Precedes.parse {w rest : List Token} {b : List Stmt} {fs : List Failure}
    (h : Precedes w b fs rest) (hfs : ∀ f ∈ fs, f.token? ≠ none) (stop : Token) :
    parse (w ++ rest) = (b ++ (parse rest).1, fs.map (Failure.diagnostic stop) ++ (parse rest).2) := by
  have hstop : (faults (program .standard rest).events).map
      (Failure.diagnostic (endToken (w ++ rest))) = (Grammar.parse rest).2 := by
    rw [parse_snd]
    by_cases hrest : rest = []
    · rw [hrest, program_of_eof rfl]
      rfl
    · rw [endToken_append w hrest]
  have hmap : fs.map (Failure.diagnostic (endToken (w ++ rest))) =
      fs.map (Failure.diagnostic stop) := by
    refine List.map_congr_left fun f hf => ?_
    obtain ⟨t, ht⟩ := Option.ne_none_iff_exists'.1 (hfs f hf)
    rw [Failure.diagnostic, Failure.diagnostic, ht]
    rfl
  refine Prod.ext h.1 ?_
  rw [parse_snd, h.2, List.map_append, hmap, hstop]

/-- A list without the end of input that parses without diagnostics is a file of the grammar. -/
theorem forms_of_parse {ts : List Token} {file : File} (he : ∀ t ∈ ts, t.kind ≠ .eof)
    (h : parse ts = (file, [])) : Forms .sequence ts file := by
  obtain ⟨w, hw, hc, hr⟩ := program_formed ts
  have hts := hc ((parse_snd_eq_nil_iff ts).1 (congrArg Prod.snd h))
  have hrest : (program .standard ts).rest = [] := by
    cases hp : (program .standard ts).rest with
    | nil => rfl
    | cons t rest =>
      rw [hp] at hts hr
      exact absurd hr (he t (by simp [hts]))
  have hfile : (program .standard ts).file = file := congrArg Prod.fst h
  rw [hrest, List.append_nil] at hts
  rw [← hts, hfile] at hw
  exact hw

/-- Behind a file without diagnostics, any token list that does not start with `else` is parsed as
if it stood alone. -/
theorem parse_append {ts us : List Token} {file : File} (he : ∀ t ∈ ts, t.kind ≠ .eof)
    (hts : parse ts = (file, [])) (hus : headKind us ≠ .kwElse) :
    parse (ts ++ us) = (file ++ (parse us).1, (parse us).2) :=
  ((forms_of_parse he hts).precedes hus).parse (by simp) (endToken us)

/-- A conditional: `if true { }`. -/
def conditionalTokens : List Token :=
  [bareToken .kwIf, bareToken .kwTrue, bareToken .lBrace, bareToken .rBrace]

theorem parse_append_conditionalTokens :
    (∀ t ∈ conditionalTokens, t.kind ≠ .eof) ∧
      parse conditionalTokens = ([.ifElse (.boolean true) [] .nothing], []) ∧
      parse (conditionalTokens ++ [bareToken .rBrace, bareToken .kwElse]) =
        ([.ifElse (.boolean true) [] .nothing] ++ (parse [bareToken .rBrace, bareToken .kwElse]).1,
          (parse [bareToken .rBrace, bareToken .kwElse]).2) := by
  have he : ∀ t ∈ conditionalTokens, t.kind ≠ .eof := by decide
  have hp : parse conditionalTokens = ([.ifElse (.boolean true) [] .nothing], []) := by
    with_unfolding_all rfl
  exact ⟨he, hp, parse_append he hp (by decide)⟩

end FrontEnd.Grammar
