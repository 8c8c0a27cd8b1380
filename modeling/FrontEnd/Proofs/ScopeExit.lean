import FrontEnd.Proofs.Scopes
import Mathlib.Data.List.Infix

/-!
Leaving a scope undoes it. Between the opening of a scope and its closing anything may be asked of
the table, as long as every scope that is opened meanwhile is closed again: the table is then what
it was before. The actions in between reach only the scopes above the one they started from.
-/

set_option autoImplicit false

namespace FrontEnd.SymbolTable

/-! ### Balanced actions -/

/-- The number of scopes that the actions open. -/
def openings (h : List Action) : Nat := h.countP (· matches .push _)

/-- The number of scopes that the actions close, or try to. -/
def closings (h : List Action) : Nat := h.countP (· matches .pop)

/-- At no point more scopes have been closed than opened, and in the end as many. -/
structure Balanced (h : List Action) : Prop where
  closings_le : ∀ g, g <+: h → closings g ≤ openings g
  closings_eq : closings h = openings h

instance (h : List Action) : Decidable (Balanced h) :=
  decidable_of_iff ((∀ g ∈ h.inits, closings g ≤ openings g) ∧ closings h = openings h)
    ⟨fun hb => ⟨fun g hg => hb.1 g ((List.mem_inits g h).2 hg), hb.2⟩,
      fun hb => ⟨fun g hg => hb.closings_le g ((List.mem_inits g h).1 hg), hb.closings_eq⟩⟩

theorem openings_snoc (h : List Action) (a : Action) :
    openings (h ++ [a]) = openings h + openings [a] := List.countP_append

theorem closings_snoc (h : List Action) (a : Action) :
    closings (h ++ [a]) = closings h + closings [a] := List.countP_append

/-! ### What lies below -/

/-- The table `t'` is `t` with a scope of the given kind on top of it, and `n` scopes on that. -/
def Above (t : SymbolTable) (kind : ScopeKind) (n : Nat) (t' : SymbolTable) : Prop :=
  ∃ top frame, top.length = n ∧ t' = { t with inner := top ++ (kind, frame) :: t.inner }

section

variable {t t' : SymbolTable} {kind : ScopeKind} {n : Nat}

theorem above_push (t : SymbolTable) (kind : ScopeKind) : Above t kind 0 (t.push kind) :=
  ⟨[], [], rfl, rfl⟩

theorem Above.push (h : Above t kind n t') (kind' : ScopeKind) :
    Above t kind (n + 1) (t'.push kind') := by
  obtain ⟨top, frame, hn, rfl⟩ := h
  exact ⟨(kind', []) :: top, frame, congrArg (· + 1) hn, rfl⟩

theorem Above.pop (h : Above t kind (n + 1) t') : Above t kind n (t'.act .pop).2 := by
  obtain ⟨top, frame, hn, rfl⟩ := h
  cases top with
  | nil => simp at hn
  | cons scope top => exact ⟨top, frame, Nat.succ.inj hn, rfl⟩

/-- A declaration goes to the innermost scope, which is never one of those below. -/
theorem Above.declare (h : Above t kind n t') (d : Declaration) :
    Above t kind n (t'.act (.declare d)).2 := by
  obtain ⟨top, frame, hn, rfl⟩ := h
  rw [act_declare]
  cases top with
  | nil =>
    cases hd : frame.declare? d with
    | none => exact ⟨[], frame, hn, by simp [declare?, hd]⟩
    | some frame' => exact ⟨[], frame', hn, by simp [declare?, hd]⟩
  | cons scope top =>
    obtain ⟨kind', frame'⟩ := scope
    cases hd : frame'.declare? d with
    | none => exact ⟨(kind', frame') :: top, frame, hn, by simp [declare?, hd]⟩
    | some frame'' => exact ⟨(kind', frame'') :: top, frame, hn, by simp [declare?, hd]⟩

/-- What lies below stays as it is, as long as no more scopes are closed than are opened. -/
theorem above_run (t : SymbolTable) (kind : ScopeKind) {h : List Action}
    (hb : ∀ g, g <+: h → closings g ≤ openings g) :
    Above t kind (openings h - closings h) ((t.push kind).run h) := by
  induction h using List.reverseRecOn with
  | nil => exact above_push t kind
  | append_singleton h a ih =>
    have hprefix : h <+: h ++ [a] := List.prefix_append h [a]
    have habove := ih fun g hg => hb g (hg.trans hprefix)
    have hle := hb h hprefix
    have hle' := hb (h ++ [a]) List.prefix_rfl
    rw [run_snoc]
    rw [openings_snoc, closings_snoc] at hle' ⊢
    cases a with
    | push kind' =>
      have hn : openings h + 1 - closings h = openings h - closings h + 1 := by omega
      exact hn ▸ habove.push kind'
    | pop =>
      have hlt : closings h + 1 ≤ openings h := hle'
      have hn : openings h - closings h = openings h - (closings h + 1) + 1 := by omega
      exact (hn ▸ habove).pop
    | declare d => exact habove.declare d
    | declared name => exact habove
    | get name => exact habove

/-- Closing the scope that lies on top of a table gives the table back. -/
theorem Above.act_pop (h : Above t kind 0 t') : t'.act .pop = (.popped (some kind), t) := by
  obtain ⟨top, frame, hn, rfl⟩ := h
  obtain rfl := List.length_eq_zero_iff.1 hn
  rfl

end

/-! ### Leaving a scope -/

/-- What a table answers to actions, one after the other. -/
def answers (t : SymbolTable) : List Action → List Answer
  | [] => []
  | a :: h => (t.act a).1 :: (t.act a).2.answers h

/-- A scope is opened, anything is asked in which scopes are balanced, and the scope is closed:
that closes the scope of this kind and leaves the table as it was, so that it answers to all that
is asked later as if nothing had happened. -/
theorem act_pop_run_push (t : SymbolTable) (kind : ScopeKind) {h : List Action}
    (hb : Balanced h) :
    (t.run (.push kind :: h)).act .pop = (.popped (some kind), t) ∧
      ∀ later, (t.run (.push kind :: (h ++ [.pop]))).answers later = t.answers later := by
  have habove := above_run t kind hb.closings_le
  rw [hb.closings_eq, Nat.sub_self] at habove
  have hpop : (t.run (.push kind :: h)).act .pop = (.popped (some kind), t) := habove.act_pop
  refine ⟨hpop, fun later => ?_⟩
  have hrun : t.run (.push kind :: (h ++ [.pop])) = t := by
    rw [← List.cons_append, run_snoc, hpop]
  rw [hrun]

/-- Inside, a name is shadowed, declared twice and declared again in a scope of its own. -/
theorem act_pop_run_push_shadowed :
    Balanced [.declare ⟨"x", .struct⟩, .declare ⟨"x", .enum⟩, .push .forBody,
        .declare ⟨"x", .function⟩, .get "x", .pop, .declared "y"] ∧
      (((withBuiltIns ["print"]).run [.push .function, .declare ⟨"x", .variable⟩]).run
        [.push .ifBody, .declare ⟨"x", .struct⟩, .declare ⟨"x", .enum⟩, .push .forBody,
          .declare ⟨"x", .function⟩, .get "x", .pop, .declared "y"]).act .pop =
        (.popped (some .ifBody),
          (withBuiltIns ["print"]).run [.push .function, .declare ⟨"x", .variable⟩]) := by
  have hb : Balanced [.declare ⟨"x", .struct⟩, .declare ⟨"x", .enum⟩, .push .forBody,
      .declare ⟨"x", .function⟩, .get "x", .pop, .declared "y"] := by decide
  exact ⟨hb, (act_pop_run_push _ .ifBody hb).1⟩

end FrontEnd.SymbolTable
