import FrontEnd.Scope
import Mathlib.Data.List.Induction
import Mathlib.Data.List.Nodup

/-!
The table of scopes against its history. What a table holds is said of the actions that were asked
of it: which scopes they have left open, and what they have declared there. The number of open
scopes after each action tells both, since a scope stays open as long as that number does not fall
below what it was when the scope was the innermost one.
-/

set_option autoImplicit false

namespace FrontEnd

namespace Frame

theorem find?_eq_none_iff {frame : Frame} {name : String} :
    frame.find? name = none ↔ ∀ d ∈ frame, d.name ≠ name := by
  simp [find?]

end Frame

namespace SymbolTable

/-! ### One action -/

/-- What opened the open scopes, the innermost first. -/
def kinds (t : SymbolTable) : List ScopeKind := t.inner.map Prod.fst

theorem length_frames (t : SymbolTable) : t.frames.length = t.kinds.length + 1 := by
  simp [frames, kinds]

theorem pop?_cases (t : SymbolTable) :
    t.pop? = none ∧ t.kinds = [] ∨
      ∃ kind t' frame, t.pop? = some (kind, t') ∧ t.kinds = kind :: t'.kinds ∧
        t.frames = frame :: t'.frames := by
  obtain ⟨globals, inner⟩ := t
  cases inner with
  | nil => exact .inl ⟨rfl, rfl⟩
  | cons top outer => exact .inr ⟨top.1, ⟨globals, outer⟩, top.2, rfl, rfl, rfl⟩

/-- Only the innermost frame decides on a declaration, and only it gets longer. -/
theorem declare?_cases (t : SymbolTable) (d : Declaration) :
    ∃ frame outer, t.frames = frame :: outer ∧
      (t.declare? d = none ∧ (∃ e ∈ frame, e.name = d.name) ∨
        ∃ t', t.declare? d = some t' ∧ (∀ e ∈ frame, e.name ≠ d.name) ∧
          t'.frames = (frame ++ [d]) :: outer ∧ t'.kinds = t.kinds) := by
  have hframe : ∀ frame : Frame,
      frame.declare? d = none ∧ (∃ e ∈ frame, e.name = d.name) ∨
        frame.declare? d = some (frame ++ [d]) ∧ ∀ e ∈ frame, e.name ≠ d.name := by
    intro frame
    cases he : frame.find? d.name with
    | none => exact .inr ⟨by simp [Frame.declare?, he], Frame.find?_eq_none_iff.1 he⟩
    | some e =>
      have hm : e ∈ frame := List.mem_of_find?_eq_some he
      exact .inl ⟨by simp [Frame.declare?, he], e, hm, by simpa using List.find?_some he⟩
  obtain ⟨globals, inner⟩ := t
  cases inner with
  | nil =>
    refine ⟨globals, [], rfl, ?_⟩
    rcases hframe globals with ⟨hd, he⟩ | ⟨hd, he⟩
    · exact .inl ⟨by simp [declare?, hd], he⟩
    · exact .inr ⟨⟨globals ++ [d], []⟩, by simp [declare?, hd], he, rfl, rfl⟩
  | cons top outer =>
    refine ⟨top.2, outer.map Prod.snd ++ [globals], rfl, ?_⟩
    rcases hframe top.2 with ⟨hd, he⟩ | ⟨hd, he⟩
    · exact .inl ⟨by simp [declare?, hd], he⟩
    · exact .inr ⟨⟨globals, (top.1, top.2 ++ [d]) :: outer⟩, by simp [declare?, hd], he, rfl, rfl⟩

/-! ### Histories -/

/-- The table that actions, one after the other, make of a table. -/
def run (t : SymbolTable) (h : List Action) : SymbolTable := h.foldl (fun t a => (t.act a).2) t

theorem run_append (t : SymbolTable) (h g : List Action) : t.run (h ++ g) = (t.run h).run g :=
  List.foldl_append

/-- The number of open scopes behind an action. Closing where none is open does nothing. -/
def Action.level (a : Action) (n : Nat) : Nat :=
  match a with
  | .push _ => n + 1
  | .pop => n - 1
  | _ => n

/-- The number of scopes that a history leaves open. -/
def level (h : List Action) : Nat := h.foldl (fun n a => a.level n) 0

@[simp] theorem level_snoc (h : List Action) (a : Action) :
    level (h ++ [a]) = a.level (level h) := by
  simp [level]

/-- The scope that was innermost behind the first `i` actions has not been closed since. -/
def StaysOpen (h : List Action) (i : Nat) : Prop :=
  ∀ j, i ≤ j → level (h.take i) ≤ level (h.take j)

theorem StaysOpen.le_level {h : List Action} {i : Nat} (ho : StaysOpen h i) (hi : i ≤ h.length) :
    level (h.take i) ≤ level h := by
  have hl := ho h.length hi
  rwa [List.take_length] at hl

theorem StaysOpen.take {h : List Action} {i n : Nat} (ho : StaysOpen h i) (hi : i ≤ n) :
    StaysOpen (h.take n) i := by
  intro j hj
  rw [List.take_take, List.take_take, Nat.min_eq_left hi]
  exact ho (min j n) (by omega)

theorem staysOpen_snoc {h : List Action} {a : Action} {i : Nat} (hi : i ≤ h.length) :
    StaysOpen (h ++ [a]) i ↔ StaysOpen h i ∧ level (h.take i) ≤ level (h ++ [a]) := by
  have ht : ∀ j ≤ h.length, (h ++ [a]).take j = h.take j :=
    fun j hj => List.take_append_of_le_length hj
  constructor
  · intro ho
    refine ⟨fun j hj => ?_, ?_⟩
    · have hl := ho (min j h.length) (by omega)
      rwa [ht i hi, ht _ (Nat.min_le_right _ _), ← List.take_take, List.take_length] at hl
    · have hl := ho.le_level (Nat.le_trans hi (by simp))
      rwa [ht i hi] at hl
  · rintro ⟨ho, hl⟩ j hj
    rw [ht i hi]
    by_cases hjl : j ≤ h.length
    · rw [ht j hjl]
      exact ho j hj
    · have hlong : (h ++ [a]).length ≤ j := by
        rw [List.length_append, List.length_singleton]
        omega
      rwa [List.take_of_length_le hlong]

theorem staysOpen_length (h : List Action) : StaysOpen h h.length := by
  intro j hj
  have he : h.take j = h.take h.length := by rw [List.take_of_length_le hj, List.take_length]
  exact Nat.le_of_eq (congrArg level he.symm)

/-- At index `i`, the declaration `d` was accepted in the scope of level `l`, which is still
open. -/
structure Standing (h : List Action) (l i : Nat) (d : Declaration) : Prop where
  action : h[i]? = some (.declare d)
  accepted : ((empty.run (h.take i)).act (.declare d)).1 = .declared true
  level_eq : level (h.take i) = l
  opened : StaysOpen h i

/-- At index `i`, the scope of level `l` was opened, which is still open. -/
structure Opening (h : List Action) (l i : Nat) (kind : ScopeKind) : Prop where
  action : h[i]? = some (.push kind)
  level_eq : level (h.take (i + 1)) = l
  opened : StaysOpen h (i + 1)

theorem lt_length_of_getElem? {h : List Action} {i : Nat} {a : Action} (hi : h[i]? = some a) :
    i < h.length :=
  (List.getElem?_eq_some_iff.1 hi).1

theorem Standing.level_le {h : List Action} {l i : Nat} {d : Declaration}
    (hs : Standing h l i d) : l ≤ level h := by
  have hl := hs.opened.le_level (Nat.le_of_lt (lt_length_of_getElem? hs.action))
  rwa [hs.level_eq] at hl

theorem Opening.level_le {h : List Action} {l i : Nat} {kind : ScopeKind}
    (ho : Opening h l i kind) : l ≤ level h := by
  have hl := ho.opened.le_level (lt_length_of_getElem? ho.action)
  rwa [ho.level_eq] at hl

/-- The index of an action of a history that is one longer. -/
theorem getElem?_snoc {h : List Action} {a b : Action} {i : Nat} :
    (h ++ [a])[i]? = some b ↔ h[i]? = some b ∨ i = h.length ∧ a = b := by
  rw [List.getElem?_append]
  split
  · rename_i hi
    have hne : i ≠ h.length := Nat.ne_of_lt hi
    simp [hne]
  · rename_i hi
    have hn : h[i]? = none := List.getElem?_eq_none (Nat.le_of_not_lt hi)
    by_cases he : i = h.length
    · simp [he]
    · have hs : i - h.length ≠ 0 := by omega
      simp [hn, he, hs]

theorem standing_snoc {h : List Action} {a : Action} {l i : Nat} {d : Declaration} :
    Standing (h ++ [a]) l i d ↔
      Standing h l i d ∧ l ≤ level (h ++ [a]) ∨
        i = h.length ∧ l = level h ∧ a = .declare d ∧
          ((empty.run h).act (.declare d)).1 = .declared true := by
  constructor
  · rintro ⟨ha, hd, hl, ho⟩
    rcases getElem?_snoc.1 ha with ha | ⟨rfl, rfl⟩
    · have hi := lt_length_of_getElem? ha
      rw [List.take_append_of_le_length (Nat.le_of_lt hi)] at hd hl
      obtain ⟨ho, hle⟩ := (staysOpen_snoc (Nat.le_of_lt hi)).1 ho
      exact .inl ⟨⟨ha, hd, hl, ho⟩, hl ▸ hle⟩
    · rw [List.take_left] at hd hl
      exact .inr ⟨rfl, hl.symm, rfl, hd⟩
  · rintro (⟨⟨ha, hd, hl, ho⟩, hle⟩ | ⟨rfl, rfl, rfl, hd⟩)
    · have hi := lt_length_of_getElem? ha
      have ht : (h ++ [a]).take i = h.take i := List.take_append_of_le_length (Nat.le_of_lt hi)
      exact ⟨getElem?_snoc.2 (.inl ha), by rwa [ht], by rwa [ht],
        (staysOpen_snoc (Nat.le_of_lt hi)).2 ⟨ho, hl ▸ hle⟩⟩
    · refine ⟨getElem?_snoc.2 (.inr ⟨rfl, rfl⟩), by rwa [List.take_left], by rw [List.take_left],
        (staysOpen_snoc (Nat.le_refl _)).2 ?_⟩
      rw [List.take_length, level_snoc]
      exact ⟨staysOpen_length h, Nat.le_refl _⟩

/-- Where an action closes no scope of this level and has nothing accepted in one, what stood
there still does, and nothing else. -/
theorem standing_snoc_of_kept {h : List Action} {a : Action} {l i : Nat} {d : Declaration}
    (hl : Standing h l i d → l ≤ level (h ++ [a]))
    (hd : a = .declare d → l = level h →
      ((empty.run h).act (.declare d)).1 ≠ .declared true) :
    Standing (h ++ [a]) l i d ↔ Standing h l i d := by
  rw [standing_snoc]
  constructor
  · rintro (⟨hs, -⟩ | ⟨-, hlevel, ha, hacc⟩)
    · exact hs
    · exact absurd hacc (hd ha hlevel)
  · exact fun hs => .inl ⟨hs, hl hs⟩

theorem opening_snoc {h : List Action} {a : Action} {l i : Nat} {kind : ScopeKind} :
    Opening (h ++ [a]) l i kind ↔
      Opening h l i kind ∧ l ≤ level (h ++ [a]) ∨
        i = h.length ∧ l = level h + 1 ∧ a = .push kind := by
  have hlast : (h ++ [a]).take (h.length + 1) = h ++ [a] := List.take_of_length_le (by simp)
  constructor
  · rintro ⟨ha, hl, ho⟩
    rcases getElem?_snoc.1 ha with ha | ⟨rfl, rfl⟩
    · have hi := lt_length_of_getElem? ha
      rw [List.take_append_of_le_length hi] at hl
      obtain ⟨ho, hle⟩ := (staysOpen_snoc hi).1 ho
      exact .inl ⟨⟨ha, hl, ho⟩, hl ▸ hle⟩
    · rw [hlast, level_snoc] at hl
      exact .inr ⟨rfl, hl.symm, rfl⟩
  · rintro (⟨⟨ha, hl, ho⟩, hle⟩ | ⟨rfl, rfl, rfl⟩)
    · have hi := lt_length_of_getElem? ha
      refine ⟨getElem?_snoc.2 (.inl ha), ?_, (staysOpen_snoc hi).2 ⟨ho, hl ▸ hle⟩⟩
      rwa [List.take_append_of_le_length hi]
    · refine ⟨getElem?_snoc.2 (.inr ⟨rfl, rfl⟩), ?_, ?_⟩
      · rw [hlast, level_snoc]
        rfl
      · have ho := staysOpen_length (h ++ [.push kind])
        rwa [List.length_append] at ho

/-! ### What a table keeps of its history -/

/-- A frame with `n` frames further out is that of the scope of level `n`, and holds what was
declared there. The kinds of the scopes are counted likewise; the global scope has none. -/
structure Mirrors (h : List Action) (t : SymbolTable) : Prop where
  depth : t.kinds.length = level h
  frames : ∀ frame outer, frame :: outer <:+ t.frames →
    ∀ d, d ∈ frame ↔ ∃ i, Standing h outer.length i d
  kinds : ∀ kind outer, kind :: outer <:+ t.kinds → ∃ i, Opening h (outer.length + 1) i kind
  names : ∀ frame ∈ t.frames, (frame.map (·.name)).Nodup

theorem mirrors_empty : Mirrors [] empty := by
  have hstanding : ∀ l i d, ¬ Standing [] l i d := fun l i d hs => by simpa using hs.action
  refine ⟨rfl, fun frame outer hs d => ?_, fun kind outer hs => ?_, ?_⟩
  · have hf : frame = [] := List.mem_singleton.1 (hs.subset List.mem_cons_self)
    simp [hf, hstanding]
  · cases List.suffix_nil.1 hs
  · simp [empty, SymbolTable.frames]

section

variable {h : List Action} {t t' : SymbolTable}

/-- A table that an action leaves as it is. -/
theorem Mirrors.unchanged (hm : Mirrors h t) {a : Action} (hl : level (h ++ [a]) = level h)
    (hd : ∀ d, a = .declare d → ((empty.run h).act (.declare d)).1 ≠ .declared true) :
    Mirrors (h ++ [a]) t := by
  refine ⟨hl ▸ hm.depth, fun frame outer hs d => ?_, fun kind outer hs => ?_, hm.names⟩
  · rw [hm.frames frame outer hs d]
    refine exists_congr fun i => (standing_snoc_of_kept ?_ fun ha _ => hd d ha).symm
    exact fun hs => hl ▸ hs.level_le
  · obtain ⟨i, ho⟩ := hm.kinds kind outer hs
    exact ⟨i, opening_snoc.2 (.inl ⟨ho, hl ▸ ho.level_le⟩)⟩

theorem Mirrors.push (hm : Mirrors h t) (kind : ScopeKind) :
    Mirrors (h ++ [.push kind]) (t.push kind) := by
  have hl : level (h ++ [.push kind]) = level h + 1 := level_snoc h _
  have hstanding : ∀ l i d, Standing (h ++ [.push kind]) l i d ↔ Standing h l i d := by
    intro l i d
    refine standing_snoc_of_kept (fun hs => ?_) nofun
    exact hl ▸ Nat.le_succ_of_le hs.level_le
  refine ⟨?_, fun frame outer hs d => ?_, fun kind' outer hs => ?_, ?_⟩
  · rw [hl, ← hm.depth]
    rfl
  · simp only [hstanding]
    rcases List.suffix_cons_iff.1 hs with he | hs
    · -- the new scope is still empty, and no older one is as far in
      have he : frame :: outer = [] :: t.frames := he
      obtain ⟨rfl, rfl⟩ := List.cons.inj he
      constructor
      · intro hd
        cases hd
      · rintro ⟨i, hs⟩
        have := hs.level_le
        have := t.length_frames
        have := hm.depth
        omega
    · exact hm.frames frame outer hs d
  · rcases List.suffix_cons_iff.1 hs with he | hs
    · have he : kind' :: outer = kind :: t.kinds := he
      obtain ⟨rfl, rfl⟩ := List.cons.inj he
      have hk : t.kinds.length + 1 = level h + 1 := by rw [hm.depth]
      exact ⟨h.length, opening_snoc.2 (.inr ⟨rfl, hk, rfl⟩)⟩
    · obtain ⟨i, ho⟩ := hm.kinds kind' outer hs
      exact ⟨i, opening_snoc.2 (.inl ⟨ho, hl ▸ Nat.le_succ_of_le ho.level_le⟩)⟩
  · exact List.forall_mem_cons.2 ⟨List.nodup_nil, hm.names⟩

theorem Mirrors.pop (hm : Mirrors h t) {kind : ScopeKind} {frame : Frame}
    (hk : t.kinds = kind :: t'.kinds) (hf : t.frames = frame :: t'.frames) :
    Mirrors (h ++ [.pop]) t' := by
  have hdepth : t'.kinds.length + 1 = level h := by
    rw [← hm.depth, hk]
    rfl
  have hl : level (h ++ [.pop]) = t'.kinds.length := by
    rw [level_snoc, ← hdepth]
    rfl
  refine ⟨hl.symm, fun frame outer hs d => ?_, fun kind outer hs => ?_, ?_⟩
  · have hle := hs.length_le
    rw [length_frames, List.length_cons] at hle
    rw [hm.frames frame outer (hf ▸ hs.trans (List.suffix_cons _ _)) d]
    refine exists_congr fun i => Iff.symm (standing_snoc_of_kept (fun _ => ?_) nofun)
    exact hl ▸ Nat.le_of_succ_le_succ hle
  · have hle := hs.length_le
    obtain ⟨i, ho⟩ := hm.kinds kind outer (hk ▸ hs.trans (List.suffix_cons _ _))
    exact ⟨i, opening_snoc.2 (.inl ⟨ho, hl ▸ hle⟩)⟩
  · exact fun g hg => hm.names g (hf ▸ List.mem_cons_of_mem _ hg)

theorem Mirrors.declare (hm : Mirrors h t) {d : Declaration} {frame : Frame} {outer : List Frame}
    (hacc : ((empty.run h).act (.declare d)).1 = .declared true)
    (hf : t.frames = frame :: outer) (hn : ∀ e ∈ frame, e.name ≠ d.name)
    (hf' : t'.frames = (frame ++ [d]) :: outer) (hk : t'.kinds = t.kinds) :
    Mirrors (h ++ [.declare d]) t' := by
  have hl : level (h ++ [.declare d]) = level h := level_snoc h _
  have houter : outer.length = level h := by
    have hlen := t.length_frames
    rw [hf, List.length_cons, hm.depth] at hlen
    omega
  refine ⟨hl ▸ hk ▸ hm.depth, fun g rest hs e => ?_, fun kind rest hs => ?_, ?_⟩
  · rw [hf'] at hs
    rcases List.suffix_cons_iff.1 hs with he | hs
    · obtain ⟨rfl, rfl⟩ := List.cons.inj he
      have hframe := hm.frames frame rest (hf ▸ List.suffix_refl _) e
      rw [List.mem_append, List.mem_singleton, hframe]
      constructor
      · rintro (⟨i, hs⟩ | rfl)
        · exact ⟨i, standing_snoc.2 (.inl ⟨hs, hl ▸ hs.level_le⟩)⟩
        · exact ⟨h.length, standing_snoc.2 (.inr ⟨rfl, houter, rfl, hacc⟩)⟩
      · rintro ⟨i, hs⟩
        rcases standing_snoc.1 hs with ⟨hs, -⟩ | ⟨-, -, ha, -⟩
        · exact .inl ⟨i, hs⟩
        · exact .inr (Action.declare.inj ha).symm
    · -- the scopes further out have a lower level than the one that gets the declaration
      have hlt : rest.length < outer.length := hs.length_le
      rw [hm.frames g rest (hf ▸ hs.trans (List.suffix_cons _ _)) e]
      refine exists_congr fun i => (standing_snoc_of_kept (fun hs => hl ▸ hs.level_le) ?_).symm
      intro _ hlevel
      omega
  · obtain ⟨i, ho⟩ := hm.kinds kind rest (hk ▸ hs)
    exact ⟨i, opening_snoc.2 (.inl ⟨ho, hl ▸ ho.level_le⟩)⟩
  · have hnames := hm.names
    rw [hf, List.forall_mem_cons] at hnames
    rw [hf', List.forall_mem_cons, List.map_append, List.map_singleton]
    refine ⟨List.nodup_append.2 ⟨hnames.1, List.nodup_singleton _, ?_⟩, hnames.2⟩
    rintro _ he _ hd rfl
    obtain ⟨e, he, hname⟩ := List.mem_map.1 he
    exact hn e he (hname.trans (List.mem_singleton.1 hd))

end

theorem run_snoc (t : SymbolTable) (h : List Action) (a : Action) :
    t.run (h ++ [a]) = ((t.run h).act a).2 :=
  run_append t h [a]

theorem mirrors_snoc {h : List Action} (hm : Mirrors h (empty.run h)) (a : Action) :
    Mirrors (h ++ [a]) (empty.run (h ++ [a])) := by
  rw [run_snoc]
  cases a with
  | push kind => exact hm.push kind
  | pop =>
    rcases (empty.run h).pop?_cases with ⟨hp, hk⟩ | ⟨kind, t', frame, hp, hk, hf⟩
    · have hl : level h = 0 := by
        rw [← hm.depth, hk]
        rfl
      have hact : ((empty.run h).act .pop).2 = empty.run h := by simp [act, hp]
      rw [hact]
      refine hm.unchanged ?_ (fun d ha => by cases ha)
      rw [level_snoc, hl]
      rfl
    · have hact : ((empty.run h).act .pop).2 = t' := by simp [act, hp]
      rw [hact]
      exact hm.pop hk hf
  | declare d =>
    obtain ⟨frame, outer, hf, ⟨hd, -⟩ | ⟨t', hd, hn, hf', hk⟩⟩ := (empty.run h).declare?_cases d
    · have hact : (empty.run h).act (.declare d) = (.declared false, empty.run h) := by
        simp [act, hd]
      rw [hact]
      refine hm.unchanged (level_snoc h _) fun e he => ?_
      cases he
      simp [hact]
    · have hact : (empty.run h).act (.declare d) = (.declared true, t') := by simp [act, hd]
      rw [hact]
      exact hm.declare (by rw [hact]) hf hn hf' hk
  | declared name => exact hm.unchanged (level_snoc h _) fun d ha => by cases ha
  | get name => exact hm.unchanged (level_snoc h _) fun d ha => by cases ha

theorem mirrors_run (h : List Action) : Mirrors h (empty.run h) := by
  induction h using List.reverseRecOn with
  | nil => exact mirrors_empty
  | append_singleton h a ih => exact mirrors_snoc ih a

/-! ### The order of a history -/

theorem level_take_push {h : List Action} {i : Nat} {kind : ScopeKind}
    (hi : h[i]? = some (.push kind)) : level (h.take (i + 1)) = level (h.take i) + 1 := by
  rw [List.take_add_one, hi]
  exact level_snoc _ _

/-- Of two scopes that are open, the later one is further in. -/
theorem Opening.lt {h : List Action} {l l' i j : Nat} {kind kind' : ScopeKind}
    (ho : Opening h l i kind) (ho' : Opening h l' j kind') (hij : i < j) : l < l' := by
  have hl := ho.opened j hij
  have hl' := level_take_push ho'.action
  rw [ho.level_eq] at hl
  rw [ho'.level_eq] at hl'
  omega

theorem Standing.take {h : List Action} {l i n : Nat} {d : Declaration} (hs : Standing h l i d)
    (hi : i < n) : Standing (h.take n) l i d := by
  have hle := Nat.le_of_lt hi
  have ht : (h.take n).take i = h.take i := by rw [List.take_take, Nat.min_eq_left hle]
  refine ⟨?_, ht.symm ▸ hs.accepted, ht.symm ▸ hs.level_eq, hs.opened.take hle⟩
  rw [List.getElem?_take, if_pos hi]
  exact hs.action

/-- The innermost scope holds what was declared there. -/
theorem Mirrors.mem_innermost {h : List Action} {t : SymbolTable} (hm : Mirrors h t)
    {frame : Frame} {outer : List Frame} (hf : t.frames = frame :: outer) (d : Declaration) :
    d ∈ frame ↔ ∃ i, Standing h (level h) i d := by
  have hlen := t.length_frames
  rw [hf, List.length_cons, hm.depth] at hlen
  rw [hm.frames frame outer (hf ▸ List.suffix_refl _) d, Nat.succ.inj hlen]

/-- While a scope is open, it accepts a name once. -/
theorem Standing.index_unique {h : List Action} {l i j : Nat} {d e : Declaration}
    (hd : Standing h l i d) (he : Standing h l j e) (hn : d.name = e.name) : i = j := by
  -- the later of the two was asked of a table that held the earlier one
  have hlt : ∀ {i j d e}, Standing h l i d → Standing h l j e → d.name = e.name → ¬ i < j := by
    intro i j d e hd he hn hij
    have hm := mirrors_run (h.take j)
    obtain ⟨frame, outer, hf, ⟨hr, -⟩ | ⟨t', -, hfree, -, -⟩⟩ :=
      (empty.run (h.take j)).declare?_cases e
    · have hacc := he.accepted
      simp [act, hr] at hacc
    · have hin : d ∈ frame := (hm.mem_innermost hf d).2 ⟨i, by
        rw [he.level_eq]
        exact hd.take hij⟩
      exact hfree d hin hn
  have := hlt hd he hn
  have := hlt he hd hn.symm
  omega

/-! ### Lookup -/

/-- The first declaration of the name in the innermost open scope that has one. -/
def Seen (h : List Action) (name : String) (d : Declaration) : Prop :=
  d.name = name ∧ ∃ l i, Standing h l i d ∧
    ∀ l' j e, Standing h l' j e → e.name = name → l' < l ∨ l' = l ∧ i ≤ j

theorem Seen.unique {h : List Action} {name : String} {d e : Declaration} (hd : Seen h name d)
    (he : Seen h name e) : d = e := by
  obtain ⟨hdn, l, i, hds, hdmin⟩ := hd
  obtain ⟨hen, l', j, hes, hemin⟩ := he
  have hij : i = j := by
    have := hdmin l' j e hes hen
    have := hemin l i d hds hdn
    omega
  have ha := hds.action
  rw [hij, hes.action] at ha
  exact (Action.declare.inj (Option.some.inj ha)).symm

/-- A search through the outer scopes finds what the innermost of them declares. -/
theorem Mirrors.findSome?_cases {h : List Action} {t : SymbolTable} (hm : Mirrors h t)
    (name : String) {fs : List Frame} (hfs : fs <:+ t.frames) :
    fs.findSome? (·.find? name) = none ∧
        (∀ l i e, Standing h l i e → l < fs.length → e.name ≠ name) ∨
      ∃ d l i, fs.findSome? (·.find? name) = some d ∧ d.name = name ∧ Standing h l i d ∧
        ∀ l' j e, Standing h l' j e → l' < fs.length → e.name = name → l' ≤ l := by
  induction fs with
  | nil => exact .inl ⟨rfl, fun l i e _ hl => absurd hl (Nat.not_lt_zero l)⟩
  | cons frame outer ih =>
    have hframe := hm.frames frame outer hfs
    cases hd : frame.find? name with
    | some d =>
      have hm := List.mem_of_find?_eq_some hd
      obtain ⟨i, hs⟩ := (hframe d).1 hm
      refine .inr ⟨d, outer.length, i, by simp [hd], by simpa using List.find?_some hd, hs, ?_⟩
      exact fun l' j e _ hl _ => Nat.le_of_lt_succ hl
    | none =>
      have hnone : ∀ i e, Standing h outer.length i e → e.name ≠ name :=
        fun i e hs => Frame.find?_eq_none_iff.1 hd e ((hframe e).2 ⟨i, hs⟩)
      have hcons : (frame :: outer).findSome? (·.find? name) = outer.findSome? (·.find? name) := by
        simp [hd]
      rw [hcons, List.length_cons]
      have houter := (List.suffix_cons frame outer).trans hfs
      rcases ih houter with ⟨hf, hno⟩ | ⟨d, l, i, hf, hn, hs, hin⟩
      · refine .inl ⟨hf, fun l i e hs hl => ?_⟩
        rcases Nat.lt_succ_iff_lt_or_eq.1 hl with hl | rfl
        · exact hno l i e hs hl
        · exact hnone i e hs
      · refine .inr ⟨d, l, i, hf, hn, hs, fun l' j e hs' hl he => ?_⟩
        rcases Nat.lt_succ_iff_lt_or_eq.1 hl with hl | rfl
        · exact hin l' j e hs' hl he
        · exact absurd he (hnone j e hs')

theorem Mirrors.find?_cases {h : List Action} {t : SymbolTable} (hm : Mirrors h t)
    (name : String) :
    t.find? name = none ∧ (∀ l i e, Standing h l i e → e.name ≠ name) ∨
      ∃ d, t.find? name = some d ∧ Seen h name d := by
  have hlt : ∀ {l i e}, Standing h l i e → l < t.frames.length := by
    intro l i e hs
    rw [length_frames, hm.depth]
    exact Nat.lt_succ_of_le hs.level_le
  rcases hm.findSome?_cases name (List.suffix_refl _) with ⟨hf, hno⟩ | ⟨d, l, i, hf, hn, hs, hin⟩
  · exact .inl ⟨hf, fun l i e hs => hno l i e hs (hlt hs)⟩
  · refine .inr ⟨d, hf, hn, l, i, hs, fun l' j e hs' he => ?_⟩
    rcases Nat.lt_or_eq_of_le (hin l' j e hs' (hlt hs') he) with hl | rfl
    · exact .inl hl
    · exact .inr ⟨rfl, Nat.le_of_eq (hs.index_unique hs' (hn.trans he.symm))⟩

/-! ### A table that answers from its history -/

/-- What a table holds, and how it answers, is what its history says. -/
structure Reflects (h : List Action) (t : SymbolTable) : Prop where
  depth : t.depth = level h
  frames : t.frames.length = t.depth + 1
  names : ∀ frame ∈ t.frames, (frame.map (·.name)).Nodup
  /-- A declaration is refused where the innermost scope has one of its name. -/
  declare : ∀ d,
    t.act (.declare d) = (.declared false, t) ∧
        (∃ i e, Standing h (level h) i e ∧ e.name = d.name) ∨
      (t.act (.declare d)).1 = .declared true ∧
        ∀ i e, Standing h (level h) i e → e.name ≠ d.name
  /-- The scope that is closed is the one that was opened last, of those still open. -/
  pop :
    t.act .pop = (.popped none, t) ∧ t.depth = 0 ∨
      0 < t.depth ∧ ∃ l i kind, (t.act .pop).1 = .popped (some kind) ∧ Opening h l i kind ∧
        ∀ l' j kind', Opening h l' j kind' → j ≤ i
  lookup : ∀ name, ∃ found,
    t.act (.get name) = (.declaration found, t) ∧
      t.act (.declared name) = (.isDeclared found.isSome, t) ∧
      (∀ d, found = some d ↔ Seen h name d) ∧
      (found = none ↔ ∀ l i e, Standing h l i e → e.name ≠ name)

theorem Mirrors.reflects {h : List Action} {t : SymbolTable} (hm : Mirrors h t) :
    Reflects h t := by
  have hdepth : t.depth = t.kinds.length := (List.length_map _).symm
  refine ⟨hdepth.trans hm.depth, hdepth ▸ t.length_frames, hm.names, fun d => ?_, ?_,
    fun name => ?_⟩
  · obtain ⟨frame, outer, hf, ⟨hd, e, he, hn⟩ | ⟨t', hd, hn, -, -⟩⟩ := t.declare?_cases d
    · obtain ⟨i, hs⟩ := (hm.mem_innermost hf e).1 he
      exact .inl ⟨by simp [act, hd], i, e, hs, hn⟩
    · refine .inr ⟨by simp [act, hd], fun i e hs => hn e ?_⟩
      exact (hm.mem_innermost hf e).2 ⟨i, hs⟩
  · rcases t.pop?_cases with ⟨hp, hk⟩ | ⟨kind, t', frame, hp, hk, hf⟩
    · exact .inl ⟨by simp [act, hp], by rw [hdepth, hk]; rfl⟩
    · have hlen : t'.kinds.length + 1 = level h := by
        rw [← hm.depth, hk]
        rfl
      obtain ⟨i, ho⟩ := hm.kinds kind t'.kinds (hk ▸ List.suffix_refl _)
      refine .inr ⟨by rw [hdepth, hm.depth]; omega, level h, i, kind, by simp [act, hp],
        hlen ▸ ho, fun l' j kind' ho' => Nat.le_of_not_lt fun hij => ?_⟩
      have := ho.lt ho' hij
      have := ho'.level_le
      omega
  · refine ⟨t.find? name, rfl, rfl, ?_⟩
    rcases hm.find?_cases name with ⟨hf, hno⟩ | ⟨d, hf, hs⟩
    · rw [hf]
      refine ⟨fun d => ⟨nofun, ?_⟩, fun _ => hno, fun _ => rfl⟩
      rintro ⟨hn, l, i, hs, -⟩
      exact absurd hn (hno l i d hs)
    · rw [hf]
      refine ⟨fun e => ⟨?_, fun he => ?_⟩, nofun, fun hno => ?_⟩
      · rintro ⟨⟩
        exact hs
      · rw [hs.unique he]
      · obtain ⟨hn, l, i, hs, -⟩ := hs
        exact absurd hn (hno l i d hs)

/-- Built-in names as the first declarations of a history. -/
def builtIns (names : List String) : List Action := names.map fun name => .declare ⟨name, .builtIn⟩

theorem act_declare (t : SymbolTable) (d : Declaration) :
    (t.act (.declare d)).2 = (t.declare? d).getD t := by
  cases hd : t.declare? d <;> simp [act, hd]

theorem withBuiltIns_eq_run (names : List String) :
    withBuiltIns names = empty.run (builtIns names) := by
  simp only [withBuiltIns, run, builtIns, List.foldl_map, act_declare]

/-- Whatever is asked of a table, with built-in names or without, it goes on to answer from all
that was asked of it. -/
theorem reflects_run (names : List String) (h : List Action) :
    Reflects (builtIns names ++ h) ((withBuiltIns names).run h) := by
  rw [withBuiltIns_eq_run, ← run_append]
  exact (mirrors_run (builtIns names ++ h)).reflects

example : ((withBuiltIns ["f", "f"]).run [.push .function, .declare ⟨"f", .variable⟩,
    .declare ⟨"f", .struct⟩]).find? "f" = some ⟨"f", .variable⟩ := by
  decide

end SymbolTable

end FrontEnd
