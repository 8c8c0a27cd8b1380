import FrontEnd.Proofs.Block.Matching
import FrontEnd.Proofs.Independence

/-!
Progress. A reader that gives a value has taken at least one token, one that fails has not moved
back, and neither goes beyond the end of input. Recovery moves on wherever it starts, and so a
whole program is read up to the end of input.
-/

set_option autoImplicit false

namespace FrontEnd.Grammar

/-! ### Moving on -/

/-- Tokens before the end of input are taken off the front of `ts`, and `rest` is left. -/
def Leaves (ts rest : List Token) : Prop := ∃ w, ts = w ++ rest ∧ ∀ t ∈ w, t.kind ≠ .eof

/-- At least one token is taken. -/
structure Advances (ts rest : List Token) : Prop where
  leaves : Leaves ts rest
  shorter : rest.length < ts.length

section

variable {ts rest rest' : List Token}

theorem leaves_refl (ts : List Token) : Leaves ts ts := ⟨[], rfl, by simp⟩

theorem Leaves.trans (h : Leaves ts rest) (h' : Leaves rest rest') : Leaves ts rest' := by
  obtain ⟨w, rfl, hw⟩ := h
  obtain ⟨v, rfl, hv⟩ := h'
  exact ⟨w ++ v, (List.append_assoc ..).symm, List.forall_mem_append.2 ⟨hw, hv⟩⟩

theorem Leaves.length_le (h : Leaves ts rest) : rest.length ≤ ts.length := by
  obtain ⟨w, rfl, -⟩ := h
  rw [List.length_append]
  omega

theorem Leaves.advances (h : Leaves ts rest) (h' : Advances rest rest') : Advances ts rest' :=
  ⟨h.trans h'.leaves, Nat.lt_of_lt_of_le h'.shorter h.length_le⟩

theorem Advances.trans (h : Advances ts rest) (h' : Leaves rest rest') : Advances ts rest' :=
  ⟨h.leaves.trans h', Nat.lt_of_le_of_lt h'.length_le h.shorter⟩

/-- Before the end of input, the first token can be taken. -/
theorem advances_tail (h : headKind ts ≠ .eof) : Advances ts ts.tail := by
  cases ts with
  | nil => simp at h
  | cons t ts => exact ⟨⟨[t], rfl, by simpa using h⟩, Nat.lt_succ_self _⟩

theorem leaves_skipSemicolons (ts : List Token) : Leaves ts (skipSemicolons ts) := by
  obtain ⟨w, hw, hs⟩ := exists_skipSemicolons ts
  exact ⟨w, hw, fun t ht => by simp [hs t ht]⟩

theorem leaves_synchronize (ts : List Token) : Leaves ts (synchronize ts) := by
  obtain ⟨w, _, hw, he, -⟩ := synchronize_rises ts
  exact ⟨w, hw, he⟩

/-- Recovery goes on behind the start of the failed statement, and before the end of input. -/
theorem leaves_resume (h : Leaves ts rest) (he : headKind ts ≠ .eof) :
    Leaves ts (resume ts rest) := by
  have hpoint := h.trans (leaves_synchronize rest)
  unfold resume
  dsimp only
  split
  · rename_i hstay
    -- nothing was skipped, so the point is the start itself
    obtain ⟨w, hw, -⟩ := hpoint
    have hlength : ts.length = w.length + (synchronize rest).length := by
      rw [← List.length_append, ← hw]
    obtain rfl : w = [] := List.eq_nil_of_length_eq_zero (by omega)
    rw [List.nil_append] at hw
    rw [← hw]
    exact (advances_tail he).leaves
  · exact hpoint

end

/-! ### Readers -/

namespace Parsed

variable {α : Type} {n : Nat} {ts : List Token}

/-- With a value reading has moved on, and with a failure it has not moved back. -/
structure Progresses (p : Parsed α n) (ts : List Token) : Prop where
  value {a : α} {rest : List Token} : p.Gives a rest → Advances ts rest
  failure {f : Failure} {rest : List Token} : p.result = (.error f, rest) → Leaves ts rest

theorem progresses_of_leaves {p : Parsed α ts.length} (h : Leaves ts p.result.2) :
    p.Progresses ts where
  value hg := ⟨by rwa [hg] at h, hg.shorter⟩
  failure hf := by rwa [hf] at h

theorem Takes.leaves {p : Parsed α n} {s : Prop} (h : p.Takes ts s) : Leaves ts p.result.2 := by
  obtain ⟨w, hw, he, -⟩ := h
  exact ⟨w, hw, he⟩

theorem Meets.leaves {p : Parsed α n} {good : List Token → α → List Token → Prop}
    (h : p.Meets ts good Plain) (hg : ∀ w value rest, good w value rest → Plain w) :
    Leaves ts p.result.2 :=
  (takes_of_meets h fun w value rest hv => (hg w value rest hv).taken rest).leaves

end Parsed

open Parsed

theorem expect_progresses (kind : TokenKind) (hk : kind ∉ outerKinds) (ts : List Token) :
    (expect kind ts).Progresses ts := by
  refine progresses_of_leaves ((expect_plain kind ts).leaves ?_)
  rintro _ t rest ⟨rfl, ht⟩
  simpa [ht] using hk

theorem assignment_progresses (ts : List Token) : (assignment ts).Progresses ts :=
  progresses_of_leaves ((assignment_meets ts).leaves fun _ _ _ h => h.plain trivial)

theorem typeExpr_progresses (ts : List Token) : (typeExpr ts).Progresses ts :=
  progresses_of_leaves ((typeExpr_meets ts).leaves fun _ _ _ h => h.plain trivial)

theorem statement_progresses (ts : List Token) :
    (statement .standard ts).outcome.Progresses ts :=
  progresses_of_leaves (braced ts).statement.leaves

theorem block_progresses (ts : List Token) : (block .standard ts).outcome.Progresses ts :=
  progresses_of_leaves (braced ts).block.leaves

/-- A statement that is read or recovered from is left behind, up to the end of input. -/
theorem recover_advances {ts : List Token} (he : headKind ts ≠ .eof) :
    Advances ts (statement .standard ts).recover.rest := by
  have hleaves := (braced ts).statement.leaves
  refine ⟨?_, (statement .standard ts).recover.progress he⟩
  generalize statement .standard ts = r at hleaves
  obtain ⟨events, outcome⟩ := r
  cases outcome with
  | done value rest shorter => exact hleaves
  | failed failure rest within => exact leaves_resume hleaves he

/-- A program is read up to the first token that ends the input. -/
theorem program_rest (ts : List Token) :
    (program .standard ts).rest = ts.drop (ts.findIdx (·.kind = .eof)) := by
  have hsplit := List.take_append_drop (ts.findIdx (·.kind = .eof)) ts
  obtain ⟨-, -, hrest⟩ := program_append_eof (ts.take (ts.findIdx (·.kind = .eof)))
    (headKind_drop_findIdx ts)
  rw [hsplit] at hrest
  rw [hrest, program_rest_eq_nil fun t ht => ne_eof_of_mem_take_findIdx ht, List.nil_append]

end FrontEnd.Grammar
