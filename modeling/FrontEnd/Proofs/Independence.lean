import FrontEnd.Analysis
import FrontEnd.Proofs.Composition
import FrontEnd.Proofs.Parallel.Clause

/-!
What a parse does not depend on. It does not depend on where the tokens stand: lists that agree in
kind and value have one tree, and the same tokens of both are blamed for the same causes. Nor does
it depend on what stands behind the first token that ends the input, or on whether there is such a
token at all.
-/

set_option autoImplicit false

namespace FrontEnd.Grammar

/-! ### What is blamed, by index -/

section

variable {x y ts us : List Token}

/-- The failures on a trail have their causes in common, and the indices of the blamed tokens. -/
theorem Trail.exists_blamed (hl : ts.length + y.length = us.length + x.length)
    {bs cs ts' us' : List Token} {fs gs : List Failure} (h : Trail x y bs cs fs gs ts' us')
    (hs : InStep x y ts us bs cs) :
    ∃ blamed : List (Cause × Nat), (∀ b ∈ blamed, b.2 + x.length ≤ ts.length) ∧
      fs = blamed.map (fun b => ⟨b.1, ts[b.2]?⟩) ∧
      gs = blamed.map (fun b => ⟨b.1, us[b.2]?⟩) := by
  induction h with
  | nil => exact ⟨[], by simp, rfl, rfl⟩
  | @cons ts₁ us₁ bs cs ts' us' cause fs gs hs' _ _ ih =>
    have hbs := hs.trans hs'
    obtain ⟨i, hi, hts, hus⟩ := hbs.exists_drop hl
    obtain ⟨blamed, hb, hfs, hgs⟩ := ih hbs
    refine ⟨(cause, i) :: blamed, List.forall_mem_cons.2 ⟨hi, hb⟩, ?_, ?_⟩
    · rw [List.map_cons, ← hfs, Failure.here, hts, List.head?_drop]
    · rw [List.map_cons, ← hgs, Failure.here, hus, List.head?_drop]

end

/-- A cause that is blamed on the token at an index, or on the end behind the last token. -/
def diagnosticAt (tokens : List Token) (blamed : Cause × Nat) : Diagnostic :=
  ⟨blamed.1, (tokens[blamed.2]?.getD (endToken tokens)).position⟩

/-! ### Where the tokens stand -/

/-- Tokens that agree in kind and value are alike to the end. -/
theorem alike_of_words {ts us : List Token}
    (h : ts.map (fun t => (t.kind, t.value)) = us.map (fun t => (t.kind, t.value))) :
    Alike [] [] ts us := by
  induction ts generalizing us with
  | nil =>
    obtain rfl : us = [] := by simpa using h.symm
    exact alike_refl []
  | cons t ts ih =>
    cases us with
    | nil => simp at h
    | cons u us =>
      simp only [List.map_cons, List.cons.injEq, Prod.mk.injEq] at h
      exact .cons h.1 (ih h.2)

/-- Lists that agree in kind and value have the same tree, and their diagnostics differ only in the
positions that the blamed tokens have in the two lists. -/
theorem parse_of_words {ts us : List Token}
    (h : ts.map (fun t => (t.kind, t.value)) = us.map (fun t => (t.kind, t.value))) :
    ∃ (file : File) (blamed : List (Cause × Nat)), (∀ b ∈ blamed, b.2 ≤ ts.length) ∧
      parse ts = (file, blamed.map (diagnosticAt ts)) ∧
      parse us = (file, blamed.map (diagnosticAt us)) := by
  have ha := alike_of_words h
  obtain ⟨hfile, ht⟩ := program_parallel ha (Nat.zero_le _)
  obtain ⟨blamed, hb, hts, hus⟩ := ht.exists_blamed ha.length ha.inStep
  refine ⟨(parse ts).1, blamed, hb, Prod.ext rfl ?_, Prod.ext hfile.symm ?_⟩
  · rw [parse_snd, hts, List.map_map]
    rfl
  · rw [parse_snd, hus, List.map_map]
    rfl

/-- Layout has no influence. Token lists that agree in kind and value have equal trees and equal
causes blamed on the same indices, and sources whose tokens agree so have equal trees. -/
theorem parse_eq_of_layout :
    (∀ ts us : List Token,
      ts.map (fun t => (t.kind, t.value)) = us.map (fun t => (t.kind, t.value)) →
      ∃ (file : File) (blamed : List (Cause × Nat)), (∀ b ∈ blamed, b.2 ≤ ts.length) ∧
        parse ts = (file, blamed.map (diagnosticAt ts)) ∧
        parse us = (file, blamed.map (diagnosticAt us))) ∧
    ∀ a b : Source,
      (Scan.ofSource a).tokens.map (fun t => (t.kind, t.value)) =
        (Scan.ofSource b).tokens.map (fun t => (t.kind, t.value)) →
      (Analysis.ofSource a).file = (Analysis.ofSource b).file := by
  refine ⟨fun ts us h => parse_of_words h, fun a b h => ?_⟩
  obtain ⟨file, blamed, -, ha, hb⟩ := parse_of_words h
  have hfile : (parse (Scan.ofSource a).tokens).1 = (parse (Scan.ofSource b).tokens).1 := by
    rw [ha, hb]
  exact hfile

/-- A call in front of a number, on one line and on three. -/
theorem parse_eq_of_layout_call :
    (Scan.ofSource ⟨"t", "f(1) 2;"⟩).tokens.map (fun t => (t.kind, t.value)) =
        (Scan.ofSource ⟨"u", "f (\n1)\n  2 ;"⟩).tokens.map (fun t => (t.kind, t.value)) ∧
      (Analysis.ofSource ⟨"t", "f(1) 2;"⟩).file =
        (Analysis.ofSource ⟨"u", "f (\n1)\n  2 ;"⟩).file ∧
      ∃ (file : File) (blamed : List (Cause × Nat)),
        parse (Scan.ofSource ⟨"t", "f(1) 2;"⟩).tokens =
          (file, blamed.map (diagnosticAt (Scan.ofSource ⟨"t", "f(1) 2;"⟩).tokens)) ∧
        parse (Scan.ofSource ⟨"u", "f (\n1)\n  2 ;"⟩).tokens =
          (file, blamed.map (diagnosticAt (Scan.ofSource ⟨"u", "f (\n1)\n  2 ;"⟩).tokens)) := by
  have h : (Scan.ofSource ⟨"t", "f(1) 2;"⟩).tokens.map (fun t => (t.kind, t.value)) =
      (Scan.ofSource ⟨"u", "f (\n1)\n  2 ;"⟩).tokens.map (fun t => (t.kind, t.value)) := by
    decide +kernel
  obtain ⟨file, blamed, -, ht, hu⟩ := parse_eq_of_layout.1 _ _ h
  exact ⟨h, parse_eq_of_layout.2 _ _ h, file, blamed, ht, hu⟩

-- The number is blamed where it stands.
example : (parse (Scan.ofSource ⟨"u", "f (\n1)\n  2 ;"⟩).tokens).2 =
    [⟨.unexpectedToken .semicolon .integer, ⟨⟨3, 3⟩, "u"⟩⟩] := by decide +kernel

/-! ### What stands behind the end of input -/

/-- Behind a list whose end is the end of input, failures that were blamed on the end of the list
are blamed on the token there, and nothing else changes. -/
theorem program_append_eof (w : List Token) {y : List Token} (hy : headKind y = .eof) :
    (program .standard (w ++ y)).file = (program .standard w).file ∧
      faults (program .standard (w ++ y)).events =
        (faults (program .standard w).events).map (fun f => ⟨f.cause, f.token?.or y.head?⟩) ∧
      (program .standard (w ++ y)).rest = (program .standard w).rest ++ y := by
  have ha : Alike [] y w (w ++ y) := by
    have h := alike_append w (.stop rfl hy : SameHead [] y)
    rwa [List.append_nil] at h
  obtain ⟨hfile, ht⟩ := program_parallel ha (Nat.zero_le _)
  obtain ⟨blamed, hb, hw, hwy⟩ := ht.exists_blamed ha.length ha.inStep
  obtain ⟨i, hi, hrest, hrest'⟩ := ht.inStep.exists_drop ha.length
  refine ⟨hfile.symm, ?_, ?_⟩
  · rw [hwy, hw, List.map_map]
    refine List.map_congr_left fun b hm => ?_
    have hle : b.2 ≤ w.length := hb b hm
    obtain hlt | heq := Nat.lt_or_eq_of_le hle
    · simp [List.getElem?_append_left hlt, List.getElem?_eq_getElem hlt]
    · simp [heq, List.head?_eq_getElem?, List.getElem?_append_right]
  · have hle : i ≤ w.length := hi
    rw [hrest', hrest, List.drop_append_of_le_length hle]

/-- A failure that is blamed on a token is diagnosed at its position, wherever the list ends. -/
theorem Failure.diagnostic_or (stop e : Token) (f : Failure) :
    Failure.diagnostic stop ⟨f.cause, f.token?.or (some e)⟩ = f.diagnostic e := by
  obtain ⟨cause, token?⟩ := f
  cases token? <;> rfl

theorem Failure.diagnostic_of_position {stop stop' : Token} (h : stop.position = stop'.position)
    (f : Failure) : f.diagnostic stop = f.diagnostic stop' := by
  obtain ⟨cause, token?⟩ := f
  cases token? with
  | none => exact congrArg _ h
  | some t => rfl

theorem parse_append_eof (w : List Token) {e : Token} (he : e.kind = .eof) (rest : List Token) :
    parse (w ++ e :: rest) = ((program .standard w).file,
      (faults (program .standard w).events).map (Failure.diagnostic e)) := by
  obtain ⟨hfile, hfaults, -⟩ := program_append_eof w (y := e :: rest) he
  refine Prod.ext hfile ?_
  rw [parse_snd, hfaults, List.map_map]
  refine List.map_congr_left fun f _ => ?_
  exact f.diagnostic_or _ e

/-- Where no token ends the input, all tokens are read. -/
theorem program_rest_eq_nil {w : List Token} (hw : ∀ t ∈ w, t.kind ≠ .eof) :
    (program .standard w).rest = [] := by
  obtain ⟨-, -, -, he⟩ := program_formed w
  have hs := (program_parallel (alike_refl w) (Nat.zero_le _)).2.inStep.left
  cases hr : (program .standard w).rest with
  | nil => rfl
  | cons t rest =>
    rw [hr] at he hs
    exact absurd he (hw t (hs.subset List.mem_cons_self))

theorem headKind_drop_findIdx (ts : List Token) :
    headKind (ts.drop (ts.findIdx (·.kind = .eof))) = .eof := by
  have h := headKind_dropWhile_eof ts
  rw [List.dropWhile_eq_drop_findIdx_not] at h
  simpa using h

theorem ne_eof_of_mem_take_findIdx {ts : List Token} {t : Token}
    (h : t ∈ ts.take (ts.findIdx (·.kind = .eof))) : t.kind ≠ .eof := by
  obtain ⟨i, hi, rfl⟩ := List.mem_take_iff_getElem.1 h
  have hn := List.not_of_lt_findIdx (Nat.lt_of_lt_of_le hi (Nat.min_le_left _ _))
  simpa using hn

/-- The first token that ends the input is a barrier: what stands behind it has no influence, and
reading stops in front of it. A list without such a token is read as if it had one at its end, at
the position of the last token. -/
theorem parse_eq_parse_take (ts : List Token) :
    parse ts = parse (ts.take (ts.findIdx (·.kind = .eof) + 1)) ∧
      (program .standard ts).rest = ts.drop (ts.findIdx (·.kind = .eof)) ∧
      ∀ value, parse (ts ++ [⟨.eof, value, (ts.getLast?.map (·.position)).getD .null⟩]) =
        parse ts := by
  have he := headKind_drop_findIdx ts
  have hsplit := List.take_append_drop (ts.findIdx (·.kind = .eof)) ts
  refine ⟨?_, ?_, fun value => ?_⟩
  · cases hy : ts.drop (ts.findIdx (·.kind = .eof)) with
    | nil =>
      have hle := List.drop_eq_nil_iff.1 hy
      rw [List.take_of_length_le (Nat.le_succ_of_le hle)]
    | cons e rest =>
      rw [hy] at he hsplit
      calc parse ts
          = parse (ts.take (ts.findIdx (·.kind = .eof)) ++ e :: rest) := by rw [hsplit]
        _ = parse (ts.take (ts.findIdx (·.kind = .eof)) ++ [e]) := by
          rw [parse_append_eof _ he rest, parse_append_eof _ he []]
        _ = parse (ts.take (ts.findIdx (·.kind = .eof) + 1)) := by
          rw [List.take_add, hy]
          rfl
  · obtain ⟨-, -, hrest⟩ := program_append_eof (ts.take (ts.findIdx (·.kind = .eof))) he
    rw [hsplit] at hrest
    rw [hrest, program_rest_eq_nil fun t ht => ne_eof_of_mem_take_findIdx ht, List.nil_append]
  · rw [parse_append_eof ts rfl []]
    refine Prod.ext rfl ?_
    rw [parse_snd]
    refine List.map_congr_left fun f _ => ?_
    apply f.diagnostic_of_position
    rfl

-- A group that is not closed is skipped up to the end of input, and not to the brace behind it.
example : (program .standard [bareToken .slash, bareToken .lBrace, bareToken .eof,
    bareToken .rBrace]).rest = [bareToken .eof, bareToken .rBrace] := by decide +kernel

end FrontEnd.Grammar
