import ElmLint.Proofs.Syntax.Continuation
import Mathlib.Data.List.Forall2

/-!
# Lexemes in front of a fading text

When characters behind a lexeme become blanks, the lexeme stays as it is: the rule that read it had
met a character it could not go on with, and it cannot go on with a blank either. Only white space
and comments may grow.
-/

namespace ElmLint.Syntax

variable {c : Char} {cs cs' rest blankedRest : List Char} {kind : Kind} {p : Char → Bool}

/-- The character stays, or it becomes a blank; a line feed stays. -/
def Fades (c c' : Char) : Prop := c' = c ∨ c ≠ '\n' ∧ c' = ' '

theorem Fades.refl (c : Char) : Fades c c := .inl rfl

/-- A comment starts with this character. -/
def opensComment (c : Char) : Bool := c = '-' || c = '{'

/-- The text fades, and stays as it is up to where a comment may start. -/
structure FadesTo (cs cs' : List Char) : Prop where
  fades : List.Forall₂ Fades cs cs'
  front : cs.takeWhile (!opensComment ·) <+: cs'

theorem FadesTo.exists_eq_cons (h : FadesTo (c :: cs) blankedRest) (hc : opensComment c = false) :
    ∃ more, blankedRest = c :: more ∧ FadesTo cs more := by
  obtain ⟨hfades, hfront⟩ := h
  rw [List.takeWhile_cons_of_pos (by simp [hc])] at hfront
  cases hfades with | cons hfirst hmore => ?_
  obtain ⟨rfl, hfrontMore⟩ := List.cons_prefix_cons.mp hfront
  exact ⟨_, rfl, hmore, hfrontMore⟩

/-- A blank is a dead end. -/
theorem dulls_of_fades (h : List.Forall₂ Fades cs cs') : Dulls cs cs' := by
  induction h with
  | nil => exact .ends _
  | @cons c c' cs cs' hfirst _ ih =>
    obtain rfl | ⟨-, rfl⟩ := hfirst
    · exact .same _ ih
    · exact .space rfl _ _

theorem head?_of_fades (h : List.Forall₂ Fades cs cs') (hblank : p ' ' = false)
    (hp : ∀ c ∈ cs.head?, p c = false) : ∀ c ∈ cs'.head?, p c = false := by
  cases h with
  | nil => exact nofun
  | cons hfirst _ =>
    rintro _ ⟨⟩
    obtain rfl | ⟨-, rfl⟩ := hfirst
    · exact hp _ rfl
    · exact hblank

/-- What stops a literal is neither blanked nor moved. -/
theorem FadesTo.staysStuck (h : FadesTo cs cs') : StaysStuck cs cs' where
  quoted kind quote hquote hstuck := by
    unfold QuotedStuck at hstuck ⊢
    fun_cases quoted kind quote cs with
    | case1 =>
      cases h.fades
      rfl
    | case2 cs =>
      obtain ⟨more, rfl, hmore⟩ := h.exists_eq_cons rfl
      obtain ⟨more, rfl, -⟩ := hmore.exists_eq_cons rfl
      rfl
    | case3 c cs hc =>
      rw [quoted, if_neg hc] at hstuck
      cases congrArg Lexeme.text hstuck
    | case4 cs hescape =>
      rw [quoted.eq_3 _ _ _ _ hescape, if_pos rfl] at hstuck
      cases congrArg Lexeme.text hstuck
    | case5 c cs hescape hquote' hstop =>
      have hfirst : opensComment c = false := by obtain rfl | rfl := hstop <;> rfl
      obtain ⟨more, rfl, hmore⟩ := h.exists_eq_cons hfirst
      have hescape' (d : Char) (ds : List Char) (hc : c = '\\') (hds : more = d :: ds) : False := by
        subst hds
        cases hmore.fades with | cons _ _ => exact hescape _ _ hc rfl
      rw [quoted.eq_3 _ _ _ _ hescape', if_neg hquote', if_pos hstop]
    | case6 c cs hescape hquote' hstop =>
      rw [quoted.eq_3 _ _ _ _ hescape, if_neg hquote', if_neg hstop] at hstuck
      cases congrArg Lexeme.text hstuck
  multiline hstuck := by
    unfold MultilineStuck at hstuck ⊢
    fun_cases multiline cs
    case case1 =>
      cases h.fades
      rfl
    case case4 =>
      obtain ⟨_, rfl, hmore⟩ := h.exists_eq_cons rfl
      obtain ⟨_, rfl, hend⟩ := hmore.exists_eq_cons rfl
      cases hend.fades
      rfl
    case case6 | case9 =>
      obtain ⟨more, rfl, hmore⟩ := h.exists_eq_cons rfl
      cases hmore.fades
      rfl
    case case7 cs =>
      obtain ⟨more, rfl, hmore⟩ := h.exists_eq_cons rfl
      obtain ⟨more, rfl, -⟩ := hmore.exists_eq_cons rfl
      rfl
    all_goals
      have htext := congrArg Lexeme.text hstuck
      simp_all [multiline, Lexeme.prepend]

/-- Nothing but white space and comments changes its lexeme when the rest of the text fades. -/
theorem keeps_of_fadesTo {l : Lexeme} (h : FadesTo l.rest blankedRest) : l.Keeps blankedRest where
  dulls := dulls_of_fades h.fades
  name _ hname := head?_of_fades h.fades (by decide) hname
  symbol _ hsymbol := head?_of_fades h.fades (by decide) hsymbol
  hyphen _ hhyphen := by
    obtain ⟨more', rfl⟩ := List.head?_eq_some_iff.mp hhyphen
    obtain ⟨c, more, hfirst, -, hrest⟩ := List.forall₂_cons_right_iff.mp h.fades
    obtain hc | ⟨-, hblank⟩ := hfirst
    · rw [hrest, ← hc]
      rfl
    · cases hblank
  stuck _ := h.staysStuck

end ElmLint.Syntax
