import FrontEnd.Proofs.Clause.Soundness

/-!
What a parse accepts: the tokens before the end of input that the grammar derives, with the tree
that it derives from them, and nothing else.
-/

set_option autoImplicit false

namespace FrontEnd.Grammar

theorem takeWhile_append_of_eof {w rest : List Token} (hw : ∀ t ∈ w, t.kind ≠ .eof)
    (hr : headKind rest = .eof) : (w ++ rest).takeWhile (·.kind ≠ .eof) = w := by
  rw [List.takeWhile_append_of_pos (by simpa using hw)]
  cases rest with
  | nil => simp
  | cons t rest => simp_all

theorem headKind_dropWhile_eof (ts : List Token) :
    headKind (ts.dropWhile (·.kind ≠ .eof)) = .eof := by
  induction ts with
  | nil => rfl
  | cons t ts ih => by_cases h : t.kind = .eof <;> simp_all

theorem parse_snd_eq_nil_iff (ts : List Token) :
    (parse ts).2 = [] ↔ Clean (program .standard ts).events :=
  (clean_iff_filterMap _).symm

/-- What the grammar forms is accepted in front of the end of input. -/
theorem parse_of_forms {w rest : List Token} {file : File} (h : Forms .sequence w file)
    (hr : headKind rest = .eof) : parse (w ++ rest) = (file, []) := by
  obtain ⟨hfile, hclean⟩ := h.isRead.2 rest hr
  exact Prod.ext hfile ((parse_snd_eq_nil_iff _).2 hclean)

/-- A parse without diagnostics accepts exactly the grammar, with the tree of the grammar. -/
theorem parse_eq_iff_forms (ts : List Token) (file : File) :
    parse ts = (file, []) ↔ Forms .sequence (ts.takeWhile (·.kind ≠ .eof)) file := by
  constructor
  · intro h
    obtain ⟨w, hw, hc, hr⟩ := program_formed ts
    have hts := hc ((parse_snd_eq_nil_iff ts).1 (congrArg Prod.snd h))
    have hfile : (program .standard ts).file = file := congrArg Prod.fst h
    rw [hts, takeWhile_append_of_eof hw.not_eof hr, ← hfile]
    exact hw
  · intro h
    have hp := parse_of_forms h (headKind_dropWhile_eof ts)
    rwa [List.takeWhile_append_dropWhile] at hp

end FrontEnd.Grammar
