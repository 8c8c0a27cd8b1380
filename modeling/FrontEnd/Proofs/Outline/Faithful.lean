import FrontEnd.Proofs.Diagnosis
import FrontEnd.Proofs.Outline.Injective

/-!
The text of a file loses nothing. What stands at the leaves of a file that is read comes from
tokens of the scan, so the file is legible, whatever was wrong with the source; and the texts of
two legible files differ if the files do.
-/

set_option autoImplicit false

namespace FrontEnd

/-! ### Real numbers -/

namespace Number.Binary64

theorem isNaN_ofNat {magnitude : Nat} (h : magnitude ≤ infinity.magnitude) :
    (⟨UInt64.ofNat magnitude⟩ : Binary64).isNaN = false := by
  have hi : infinity.magnitude = 0x7ff0000000000000 := rfl
  rw [hi] at h
  have hsize : magnitude < UInt64.size := by
    change magnitude < 18446744073709551616
    omega
  have hm : (⟨UInt64.ofNat magnitude⟩ : Binary64).magnitude = magnitude := by
    rw [Binary64.magnitude, UInt64.toNat_ofNat_of_lt' hsize, signUnit]
    omega
  rw [isNaN, hm, hi]
  simpa using h

/-- A decimal is never read as NaN. -/
theorem isNaN_ofDecimal (digits : List Char) (exponent : Int) :
    (ofDecimal digits exponent).isNaN = false := by
  unfold ofDecimal
  dsimp only
  split
  · rfl
  split
  · rfl
  split
  · rfl
  · exact isNaN_ofNat (Nat.min_le_right _ _)

end Number.Binary64

namespace Grammar

/-! ### Expressions and types -/

/-- A token that can be written, or one that carries nothing into a tree. -/
def Borne (t : Token) : Prop := t.kind ∈ outerKinds ∨ Segment.Lexical t.kind t.value.toList

theorem Borne.lexical {t : Token} (h : Borne t) {kind : TokenKind} (hk : t.kind = kind)
    (hn : kind ∉ outerKinds) : Segment.Lexical kind t.value.toList := by
  rcases h with h | h
  · exact absurd (hk ▸ h) hn
  · exact hk ▸ h

theorem Borne.isName {t : Token} (h : Borne t) (hk : t.kind = .identifier) : IsName t.value :=
  h.lexical hk (by decide)

theorem Borne.stringBody {t : Token} (h : Borne t) (hk : t.kind = .string) :
    Segment.StringBody t.value.toList := by
  have hl := h.lexical hk (by decide)
  generalize t.value.toList = cs at hl
  cases hl with
  | operator hk | keyword hk => exact absurd hk (by decide)
  | string hb => exact hb

theorem Borne.characterBody {t : Token} (h : Borne t) (hk : t.kind = .character) :
    Segment.CharacterBody t.value.toList := by
  have hl := h.lexical hk (by decide)
  generalize t.value.toList = cs at hl
  cases hl with
  | operator hk | keyword hk => exact absurd hk (by decide)
  | character hb => exact hb

theorem Borne.isNaN_eq_false {t : Token} (h : Borne t) (hk : t.kind = .realNumber)
    {value : Number.Binary64} (hv : Number.Binary64.ofText? t.value = some value) :
    value.isNaN = false := by
  obtain ⟨digits, exponent, he⟩ := (h.lexical hk (by decide)).exists_ofText?
  obtain rfl := Option.some.inj (hv.symm.trans he)
  exact Number.Binary64.isNaN_ofDecimal digits exponent

def AllBorne (w : List Token) : Prop := ∀ t ∈ w, Borne t

@[simp] theorem allBorne_nil : AllBorne [] := by simp [AllBorne]

@[simp] theorem allBorne_cons {t : Token} {w : List Token} :
    AllBorne (t :: w) ↔ Borne t ∧ AllBorne w := by simp [AllBorne]

@[simp] theorem allBorne_append {w v : List Token} :
    AllBorne (w ++ v) ↔ AllBorne w ∧ AllBorne v := by simp [AllBorne, or_imp, forall_and]

/-- What a phrase derives is legible. -/
def Phrase.Legible : (p : Phrase) → p.Tree → Prop
  | .elements, es | .list, es => Expr.AllLegible es
  | .typeExpr, t => t.Legible
  | .assignment, e | .binary _, e | .cast, e | .unary, e | .access, e | .chain, e
  | .primary, e => e.Legible

theorem Names.isName {w : List Token} {head : String} {tail : List String}
    (h : Names w head tail) (hw : AllBorne w) : ∀ name ∈ head :: tail, IsName name := by
  induction h with
  | one ht =>
    simp only [allBorne_cons] at hw
    simpa using hw.1.isName ht
  | more ht _ _ ih =>
    simp only [allBorne_cons] at hw
    exact List.forall_mem_cons.2 ⟨hw.1.isName ht, ih hw.2.2⟩

/-- Phrases of borne tokens are legible. -/
theorem Derives.legible {p : Phrase} {w : List Token} {e : p.Tree} (h : Derives p w e)
    (hp : p.Proper) (hw : AllBorne w) : p.Legible e := by
  have hassign : ∀ kind ∈ Phrase.assigning, kind ∈ TokenKind.operators := by decide
  have hladder : ∀ kinds ∈ Phrase.ladder, ∀ kind ∈ kinds, kind ∈ TokenKind.operators := by decide
  induction h with try simp only [allBorne_append, allBorne_cons] at hw
  | operand _ ih => exact ih List.suffix_rfl hw
  | casted _ ih | uncast _ ih | unmarked _ ih | chained _ ih | base _ ih | some _ ih =>
    exact ih trivial hw
  | tighter _ ih => exact ih hp.of_cons hw
  | assign _ ho _ ihl ihr =>
    exact ⟨hassign _ ho, ihl List.suffix_rfl hw.1, ihr trivial hw.2.2⟩
  | operate _ ho _ ihl ihr =>
    have ho := hladder _ (hp.subset List.mem_cons_self) _ ho
    exact ⟨ho, ihl hp hw.1, ihr hp.of_cons hw.2.2⟩
  | castTo _ _ _ ihl ihr | member _ _ _ ihl ihr | arrow _ _ _ ihl ihr | qualified _ _ _ ihl ihr
  | more _ _ _ ihl ihr =>
    exact ⟨ihl trivial hw.1, ihr trivial hw.2.2⟩
  | addressOf _ _ ih | dereference _ _ ih | new _ _ ih | pointer _ _ ih => exact ih trivial hw.2
  | marked ho _ ih =>
    refine ⟨?_, ih trivial hw.2⟩
    rcases ho with ho | ho <;> rw [ho] <;> decide
  | arrayLiteral _ _ _ ih | group _ _ _ ih | array _ _ _ ih => exact ih trivial hw.2.1
  | index _ _ _ _ iha ihi => exact ⟨iha trivial hw.1, ihi trivial hw.2.2.1⟩
  | sizedArray _ _ _ _ _ iht ihe => exact ⟨iht trivial hw.2.1, ihe trivial hw.2.2.2.1⟩
  | call ht _ _ _ ih => exact ⟨hw.1.isName ht, ih trivial hw.2.2.1⟩
  | isTrue | isFalse | null | integer | none => trivial
  | realNumber ht hv => exact hw.1.isNaN_eq_false ht hv
  | string ht => exact hw.1.stringBody ht
  | character ht => exact hw.1.characterBody ht
  | identifier ht => exact hw.1.isName ht
  | last _ ih => exact ⟨ih trivial hw, trivial⟩
  | named h => exact h.isName hw

/-! ### Parts of statements -/

theorem Typed.legible {w : List Token} {name : String} {t : TypeExpr} (h : Typed w name t)
    (hw : AllBorne w) : IsName name ∧ t.Legible := by
  cases h with
  | mk hn _ ht =>
    simp only [allBorne_cons] at hw
    exact ⟨hw.1.isName hn, ht.legible trivial hw.2.2⟩

theorem Initializer.legible {w : List Token} {i : Option Expr} (h : Initializer w i)
    (hw : AllBorne w) : ∀ e ∈ i, e.Legible := by
  cases h with
  | absent => simp
  | present _ he =>
    rintro _ ⟨⟩
    exact he.legible trivial (allBorne_cons.1 hw).2

theorem Fields.legible {w : List Token} {fs : List Field} (h : Fields w fs) (hw : AllBorne w) :
    ∀ f ∈ fs, f.Legible := by
  induction h with
  | nil => simp
  | cons hf _ _ ih =>
    simp only [allBorne_append, allBorne_cons] at hw
    exact List.forall_mem_cons.2 ⟨hf.legible hw.1, ih hw.2.2⟩

theorem Member.isName {next : Int64} {w : List Token} {m : EnumMember} (h : Member next w m)
    (hw : AllBorne w) : IsName m.name := by
  cases h with
  | counted hn | valued hn => exact (allBorne_cons.1 hw).1.isName hn

theorem Members.isName {next : Int64} {w : List Token} {ms : List EnumMember}
    (h : Members next w ms) (hw : AllBorne w) : ∀ m ∈ ms, IsName m.name := by
  induction h with
  | nil => simp
  | last hm => simpa using hm.isName hw
  | more hm _ _ ih =>
    simp only [allBorne_append, allBorne_cons] at hw
    exact List.forall_mem_cons.2 ⟨hm.isName hw.1, ih hw.2.2⟩

theorem LocalName.isName {w : List Token} {a : Option String} (h : LocalName w a)
    (hw : AllBorne w) : ∀ name ∈ a, IsName name := by
  cases h with
  | absent => simp
  | present _ hn =>
    simp only [allBorne_cons] at hw
    simpa using hw.2.1.isName hn

theorem Parameter.legible {w : List Token} {p : Param} (h : Parameter w p) (hw : AllBorne w) :
    p.Legible := by
  cases h with
  | constant hn _ ht =>
    simp only [allBorne_cons] at hw
    exact ⟨hw.1.isName hn, ht.legible trivial hw.2.2⟩
  | marked hn _ _ ht =>
    simp only [allBorne_cons] at hw
    exact ⟨hw.1.isName hn, ht.legible trivial hw.2.2.2⟩

theorem Parameters.legible {w : List Token} {ps : List Param} (h : Parameters w ps)
    (hw : AllBorne w) : ∀ p ∈ ps, p.Legible := by
  induction h with
  | last hp => simpa using hp.legible hw
  | more hp _ _ ih =>
    simp only [allBorne_append, allBorne_cons] at hw
    exact List.forall_mem_cons.2 ⟨hp.legible hw.1, ih hw.2.2⟩

theorem ParameterList.legible {w : List Token} {ps : List Param} (h : ParameterList w ps)
    (hw : AllBorne w) : ∀ p ∈ ps, p.Legible := by
  cases h with
  | nil => simp
  | some h => exact h.legible hw

theorem ResultType.legible {w : List Token} {t : TypeExpr} (h : ResultType w t)
    (hw : AllBorne w) : t.Legible := by
  cases h with
  | void =>
    have hv : IsName "void" :=
      .identifier (by decide) (List.all_eq_true.1 (by decide)) (by decide)
    simpa [TypeExpr.Legible] using hv
  | some _ ht => exact ht.legible trivial (allBorne_cons.1 hw).2

theorem OwnedName.isName {w : List Token} {owner : Option String} {name : String}
    (h : OwnedName w owner name) (hw : AllBorne w) :
    (∀ name ∈ owner, IsName name) ∧ IsName name := by
  simp only [AllBorne] at hw
  cases h with
  | free hn => exact ⟨by simp, (hw _ (by simp)).isName hn⟩
  | owned hn _ hm => exact ⟨by simpa using (hw _ (by simp)).isName hn, (hw _ (by simp)).isName hm⟩

/-! ### Statements -/

/-- What a clause forms is legible. -/
def Clause.Legible : (c : Clause) → c.Tree → Prop
  | .statement, s => s.Legible
  | .block, b | .sequence, b => Stmt.AllLegible b
  | .otherwise, o => o.Legible

theorem nested_legible {name : String} {inner : List String} {body : List Stmt}
    (hn : ∀ n ∈ name :: inner, IsName n) (hb : Stmt.AllLegible body) :
    (nested name inner body).Legible := by
  induction inner generalizing name with
  | nil => exact ⟨hn name List.mem_cons_self, hb⟩
  | cons next inner ih =>
    obtain ⟨hh, ht⟩ := List.forall_mem_cons.1 hn
    exact ⟨hh, ih ht, trivial⟩

/-- Clauses of borne tokens are legible. -/
theorem Forms.legible {c : Clause} {w : List Token} {s : c.Tree} (h : Forms c w s)
    (hw : AllBorne w) : c.Legible s := by
  induction h with simp only [allBorne_append, allBorne_cons, allBorne_nil] at hw
  | namespaceDecl _ hn _ ih => exact nested_legible (hn.isName hw.2.1) (ih hw.2.2)
  | functionDecl _ hn _ hv _ hx _ ih =>
    obtain ⟨-, hwn, -, hwv, -, hwx, hwb⟩ := hw
    obtain ⟨ho, hn⟩ := hn.isName hwn
    exact ⟨ho, hn, hv.legible hwv, hx.legible hwx, ih hwb⟩
  | variableDecl _ ht hi _ =>
    obtain ⟨-, hwt, hwi, -⟩ := hw
    obtain ⟨hn, ht⟩ := ht.legible hwt
    exact ⟨hn, ht, hi.legible hwi⟩
  | structDecl _ hn _ hf _ | unionDecl _ hn _ hf _ =>
    exact ⟨hw.2.1.isName hn, hf.legible hw.2.2.2.1⟩
  | enumDecl _ hn _ hm _ => exact ⟨hw.2.1.isName hn, hm.isName hw.2.2.2.1⟩
  | usingDecl _ hn ha _ => exact ⟨hw.2.1.isName hn, ha.isName hw.2.2.1⟩
  | ifElse _ hc _ _ ihb iho => exact ⟨hc.legible trivial hw.2.1, ihb hw.2.2.1, iho hw.2.2.2⟩
  | whileLoop _ hc _ ih => exact ⟨hc.legible trivial hw.2.1, ih hw.2.2⟩
  | doWhile _ _ _ hc _ ih => exact ⟨ih hw.2.1, hc.legible trivial hw.2.2.2.1⟩
  | forLoop _ _ _ he _ ihi ihc ihb =>
    obtain ⟨-, hwi, hwc, hwe, hwb⟩ := hw
    exact ⟨ihi hwi, ihc hwc, he.legible trivial hwe, ihb hwb⟩
  | breakLoop | continueLoop | nil | nothing => trivial
  | returnNothing => rintro _ ⟨⟩
  | returnValue _ he _ =>
    rintro _ ⟨⟩
    exact he.legible trivial hw.2.1
  | free _ he _ => exact he.legible trivial hw.2.1
  | assembly _ _ hs _ =>
    intro text ht
    obtain ⟨t, hm, rfl⟩ := List.mem_map.1 ht
    exact (hw.2.2.1 t hm).stringBody (hs t hm)
  | expression he _ => exact he.legible trivial hw.1
  | block _ _ _ ih => exact ih hw.2.1
  | stray _ _ ih | elseBlock _ _ ih => exact ih hw.2
  | cons _ _ ihs ihb => exact ⟨ihs hw.1, ihb hw.2⟩
  | elseIf _ _ hc _ _ ihb iho =>
    exact ⟨hc.legible trivial hw.2.2.1, ihb hw.2.2.2.1, iho hw.2.2.2.2⟩

end Grammar

/-! ### Files -/

namespace Analysis

theorem allLegible_file (source : Source) : Stmt.AllLegible (ofSource source).file := by
  obtain ⟨w, hw, htokens, -, -⟩ := Grammar.program_yields (Scan.ofSource source).tokens
  apply hw.legible
  intro t ht
  rcases htokens.mem t ht with ht | ht
  · obtain ⟨before, after, -, -, ⟨rfl, -⟩ | ⟨hl, -⟩⟩ := Scan.exists_of_mem_tokens ht
    · exact .inl List.mem_cons_self
    · exact .inr hl
  · exact .inl (by simp [ht, Grammar.outerKinds])

/-- Files of two sources have the same text only if they are one file, and then they are equal as
values too: no NaN is read. -/
theorem text_file_eq_iff (s₁ s₂ : Source) :
    (ofSource s₁).file.text = (ofSource s₂).file.text ↔
      (ofSource s₁).file = (ofSource s₂).file ∧
        Stmt.allEqual (ofSource s₁).file (ofSource s₂).file := by
  have h₁ := allLegible_file s₁
  have h₂ := allLegible_file s₂
  constructor
  · intro h
    have ho := Outline.eq_of_text (Stmt.readable_outlines _ h₁) (Stmt.readable_outlines _ h₂) h
    have hf := Stmt.eq_of_outlines _ _ h₁ h₂ ho
    exact ⟨hf, hf ▸ Stmt.allEqual_self _ h₁⟩
  · intro h
    rw [h.1]

-- A literal may look like further lines, and is still one.
example : (ofSource ⟨"t", "\"a\nBreak\"; break;"⟩).file.text = "String \"a\nBreak\"\nBreak\n" := by
  decide +kernel

end Analysis

end FrontEnd
