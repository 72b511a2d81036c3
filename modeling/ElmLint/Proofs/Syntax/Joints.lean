import ElmLint.Proofs.Syntax.Sights
import Mathlib.Data.List.Chain

/-!
# Which words touch

Attached words are the dots of names and fields and what follows such dots. That the grammar
attaches nothing else is read off its table: which kinds of words a form ends with, and which
attached ones it begins with.
-/

namespace ElmLint.Syntax

open Grammar

variable {form other : RegularExpression Symbol} {signs : List Sign} {kinds : List Kind}

namespace Kind

/-- The kinds of the words that sentences end with. -/
def wordEnds : List Kind :=
  [.lowerIdent, .upperIdent, .underscore, .number, .string, .char, .rParen, .rBracket, .rBrace]

/-- The kinds of the words that a word of a kind may be attached to. -/
def joints : Kind → List Kind
  | .dot => wordEnds
  | .lowerIdent | .upperIdent => [.dot]
  | _ => []

/-- The kinds of tokens that a grammar can name. -/
def isWord (kind : Kind) : Bool := !kind.isTrivia && kind != .error

end Kind

-- ---------------------------------------------------------------------------
-- Last words
-- ---------------------------------------------------------------------------

/-- The words of the form, if there are any, end with a token of one of the kinds. -/
def endsWith (kinds : List Kind) : RegularExpression Symbol → Bool
  | .char (.word kind) | .char (.attached kind) => kinds.contains kind
  | .char (.operator _) => kinds.contains .operatorIdent
  | .char (.rule _) | .char (.ruleApart _ _) => Kind.wordEnds.all kinds.contains
  | .plus form other => endsWith kinds form && endsWith kinds other
  | .comp form other => endsWith kinds other && (!other.matchEpsilon || endsWith kinds form)
  | .star form => endsWith kinds form
  | _ => true

theorem endsWith_form (n : Nonterminal) : endsWith Kind.wordEnds n.form = true := by
  cases n <;> decide

theorem Derives.matchEpsilon (h : Derives form []) : form.matchEpsilon = true := by
  generalize hsigns : ([] : List Sign) = signs at h
  induction h with
  | epsilon => rfl
  | word | attached | operator => cases hsigns
  | @rule n _ h | @ruleApart n _ _ h =>
    obtain ⟨sign, more, rfl, -⟩ := h.begins (beginsWith_form n)
    cases hsigns
  | left _ ih => exact Bool.or_eq_true_iff.mpr (.inl (ih hsigns))
  | right _ ih => exact Bool.or_eq_true_iff.mpr (.inr (ih hsigns))
  | append _ _ ih ih' =>
    obtain ⟨rfl, rfl⟩ := List.append_eq_nil_iff.mp hsigns.symm
    exact Bool.and_eq_true_iff.mpr ⟨ih rfl, ih' rfl⟩
  | starNil | starCons => rfl

theorem Derives.ends (h : Derives form signs) (hform : endsWith kinds form = true) :
    ∀ sign ∈ signs.getLast?, sign.kind ∈ kinds := by
  induction h generalizing kinds with
  | epsilon | starNil => exact nofun
  | word h | attached h | operator h =>
    simpa [endsWith, h.kind_eq] using hform
  | @rule n _ _ ih | @ruleApart n _ _ _ _ ih =>
    intro sign hsign
    simp only [endsWith, List.all_eq_true] at hform
    simpa using hform _ (ih (endsWith_form n) sign hsign)
  | left _ ih => exact ih (Bool.and_eq_true_iff.mp hform).1
  | right _ ih => exact ih (Bool.and_eq_true_iff.mp hform).2
  | @append _ _ signs signs' _ h' ih ih' =>
    obtain ⟨hother, hform⟩ := Bool.and_eq_true_iff.mp hform
    cases signs' with
    | nil =>
      rw [h'.matchEpsilon] at hform
      rw [List.append_nil]
      exact ih hform
    | cons sign more =>
      rw [List.getLast?_append_of_ne_nil _ (List.cons_ne_nil _ _)]
      exact ih' hother
  | @starCons _ signs signs' _ _ ih ih' =>
    cases signs' with
    | nil =>
      rw [List.append_nil]
      exact ih hform
    | cons sign more =>
      rw [List.getLast?_append_of_ne_nil _ (List.cons_ne_nil _ _)]
      exact ih' hform

-- ---------------------------------------------------------------------------
-- Attached words
-- ---------------------------------------------------------------------------

/-- The kinds of the attached words that the words of a form may begin with. -/
def attachedFirsts : RegularExpression Symbol → List Kind
  | .char (.attached kind) => [kind]
  | .plus form other => attachedFirsts form ++ attachedFirsts other
  | .comp form other =>
    attachedFirsts form ++ if form.matchEpsilon then attachedFirsts other else []
  | .star form => attachedFirsts form
  | _ => []

theorem Derives.attachedFirsts (h : Derives form signs) :
    ∀ sign ∈ signs.head?, sign.isAttached = true → sign.kind ∈ attachedFirsts form := by
  induction h with
  | epsilon | starNil => exact nofun
  | word _ hspaced | operator _ hspaced =>
    rintro _ ⟨⟩ hattached
    rw [hspaced] at hattached
    cases hattached
  | attached h =>
    rintro _ ⟨⟩ -
    exact List.mem_singleton.mpr h.kind_eq
  | @rule n _ h | @ruleApart n _ _ h =>
    obtain ⟨sign, more, rfl, -, hspaced⟩ := h.begins (beginsWith_form n)
    rintro _ ⟨⟩ hattached
    rw [hspaced] at hattached
    cases hattached
  | left _ ih => exact fun sign hsign hattached => List.mem_append_left _ (ih sign hsign hattached)
  | right _ ih =>
    exact fun sign hsign hattached => List.mem_append_right _ (ih sign hsign hattached)
  | @append _ _ signs signs' h _ ih ih' =>
    intro sign hsign hattached
    cases signs with
    | nil =>
      refine List.mem_append_right _ ?_
      rw [if_pos h.matchEpsilon]
      exact ih' sign hsign hattached
    | cons first more => exact List.mem_append_left _ (ih sign hsign hattached)
  | @starCons _ signs signs' _ _ ih ih' =>
    intro sign hsign hattached
    cases signs with
    | nil => exact ih' sign hsign hattached
    | cons first more => exact ih sign hsign hattached

/-- Attached words that begin the second form go with what the first ends with. -/
def joins (form other : RegularExpression Symbol) : Bool :=
  (attachedFirsts other).all fun kind => endsWith kind.joints form

/-- All over the form, attached words go with what stands in front of them. -/
def coheres : RegularExpression Symbol → Bool
  | .char (.word kind) | .char (.attached kind) => kind.isWord
  | .plus form other => coheres form && coheres other
  | .comp form other => coheres form && coheres other && joins form other
  | .star form => coheres form && joins form form
  | _ => true

theorem coheres_form (n : Nonterminal) : coheres n.form = true := by cases n <;> decide

/-- The second word, if it is attached, may stand behind the first. -/
def Joins (sign sign' : Sign) : Prop := sign'.isAttached = true → sign.kind ∈ sign'.kind.joints

/-- The words are tokens, and those that are attached are so rightly. -/
structure AreJoined (signs : List Sign) : Prop where
  tokens : ∀ sign ∈ signs, sign.kind.isWord = true ∧ sign.IsToken sign.kind
  chain : signs.IsChain Joins

theorem AreJoined.append {signs' : List Sign} (h : AreJoined signs) (h' : AreJoined signs')
    (hjoins : ∀ sign ∈ signs.getLast?, ∀ sign' ∈ signs'.head?, Joins sign sign') :
    AreJoined (signs ++ signs') where
  tokens := List.forall_mem_append.mpr ⟨h.tokens, h'.tokens⟩
  chain := h.chain.append h'.chain hjoins

theorem Derives.joins {signs' : List Sign} (h : Derives form signs) (h' : Derives other signs')
    (hjoins : joins form other = true) :
    ∀ sign ∈ signs.getLast?, ∀ sign' ∈ signs'.head?, Joins sign sign' := by
  intro sign hsign sign' hsign' hattached
  have hends := List.all_eq_true.mp hjoins _ (h'.attachedFirsts sign' hsign' hattached)
  exact h.ends hends sign hsign

theorem Derives.areJoined (h : Derives form signs) (hform : coheres form = true) :
    AreJoined signs := by
  induction h with
  | epsilon | starNil => exact ⟨nofun, .nil⟩
  | word h | attached h =>
    obtain rfl := h.kind_eq
    exact ⟨List.forall_mem_singleton.mpr ⟨hform, h⟩, .singleton _⟩
  | operator h =>
    refine ⟨List.forall_mem_singleton.mpr ?_, .singleton _⟩
    rw [h.kind_eq]
    exact ⟨rfl, h⟩
  | @rule n _ _ ih | @ruleApart n _ _ _ _ ih => exact ih (coheres_form n)
  | left _ ih => exact ih (Bool.and_eq_true_iff.mp hform).1
  | right _ ih => exact ih (Bool.and_eq_true_iff.mp hform).2
  | append h h' ih ih' =>
    simp only [coheres, Bool.and_eq_true] at hform
    exact (ih hform.1.1).append (ih' hform.1.2) (h.joins h' hform.2)
  | starCons h h' ih ih' =>
    refine (ih (Bool.and_eq_true_iff.mp hform).1).append (ih' hform) (h.joins h' ?_)
    exact (Bool.and_eq_true_iff.mp hform).2

/-- Joined words of which the last is no dot. -/
structure IsSentence (signs : List Sign) : Prop extends AreJoined signs where
  ends : ∀ sign ∈ signs.getLast?, sign.kind ∈ Kind.wordEnds

theorem IsSentence.tail {sign : Sign} (h : IsSentence (sign :: signs)) : IsSentence signs where
  tokens := (List.forall_mem_cons.mp h.tokens).2
  chain := h.chain.tail
  ends := by
    cases signs with
    | nil => exact nofun
    | cons next signs => simpa using h.ends

theorem isSentence_of_derives {n : Nonterminal} (h : Derives (Form.rule n) signs) :
    IsSentence signs where
  toAreJoined := h.areJoined rfl
  ends := h.ends (show Kind.wordEnds.all Kind.wordEnds.contains = true by decide)

end ElmLint.Syntax
