import ElmLint.Proofs.Syntax.Arrival
import ElmLint.Proofs.Syntax.Sentences

/-!
# Words in front of a cursor

What rules ask about is decided by the words in front of the cursor, by their columns, and by
which of them touch. `Cursor.signs` are these words as they stand, `Cursor.phrase` those from the
next token on, where white space in front no longer matters. `Spelt form words`: the words can be
derived from the form.
-/

namespace ElmLint.Syntax

open Grammar

/-- A word in front of a cursor, in its column. -/
structure Seen extends Sign where
  column : Nat
  deriving DecidableEq, Repr

/-- The same words with a gap in front. -/
def detach : List Seen → List Seen
  | [] => []
  | s :: more => { s with isAttached := false } :: more

def PlacedToken.seen (t : PlacedToken) : Seen := ⟨⟨t.kind, t.text, true⟩, t.column⟩

def signsOf : List PlacedToken → List Seen
  | [] => []
  | t :: tokens => if t.kind.isTrivia then detach (signsOf tokens) else t.seen :: signsOf tokens

variable {c : Cursor} {s : Seen} {words behind more v : List Seen} {t : PlacedToken}
  {tokens : List PlacedToken} {kind : Kind}

@[simp] theorem detach_detach (v : List Seen) : detach (detach v) = detach v := by cases v <;> rfl

@[simp] theorem length_detach (v : List Seen) : (detach v).length = v.length := by cases v <;> rfl

theorem signsOf_trivia (ht : t.kind.isTrivia = true) (tokens : List PlacedToken) :
    signsOf (t :: tokens) = detach (signsOf tokens) := if_pos ht

theorem signsOf_word (ht : t.kind.isTrivia = false) (tokens : List PlacedToken) :
    signsOf (t :: tokens) = t.seen :: signsOf tokens := if_neg (by simp [ht])

theorem length_signsOf_le (tokens : List PlacedToken) :
    (signsOf tokens).length ≤ tokens.length := by
  induction tokens with
  | nil => exact Nat.le_refl 0
  | cons t tokens ih =>
    rw [signsOf]
    split
    · rw [length_detach]
      exact Nat.le_succ_of_le ih
    · exact Nat.succ_le_succ ih

theorem detach_signsOf_dropWhile (tokens : List PlacedToken) :
    detach (signsOf (tokens.dropWhile (·.kind.isTrivia))) = detach (signsOf tokens) := by
  induction tokens with
  | nil => rfl
  | cons t tokens ih =>
    by_cases ht : t.kind.isTrivia = true
    · rw [List.dropWhile_cons, if_pos ht, signsOf_trivia ht, ih, detach_detach]
    · rw [List.dropWhile_cons, if_neg ht]

/-- An attached word is the first token. -/
theorem exists_token_of_signsOf (h : signsOf tokens = s :: more) (hattached : s.isAttached = true) :
    ∃ t tokens', tokens = t :: tokens' ∧ t.kind.isTrivia = false ∧ t.seen = s ∧
      signsOf tokens' = more := by
  cases tokens with
  | nil => cases h
  | cons t tokens =>
    by_cases ht : t.kind.isTrivia = true
    · rw [signsOf_trivia ht] at h
      cases hsigns : signsOf tokens with
      | nil => rw [hsigns] at h; cases h
      | cons s' more' =>
        rw [hsigns, detach, List.cons.injEq] at h
        rw [← h.1] at hattached
        cases hattached
    · rw [Bool.not_eq_true] at ht
      rw [signsOf_word ht, List.cons.injEq] at h
      exact ⟨t, tokens, rfl, ht, h⟩

/-- Words with a gap in front do not touch the tokens before them. -/
def IsSpaced (v : List Seen) : Prop := ∀ s ∈ v.head?, s.isAttached = false

theorem IsSpaced.detach_eq (h : IsSpaced v) : detach v = v := by
  cases v with
  | nil => rfl
  | cons s v =>
    have hs : s.isAttached = false := h s rfl
    obtain ⟨⟨kind, text, isAttached⟩, column⟩ := s
    cases hs
    rfl

namespace Cursor

/-- The words in front of the cursor. -/
def signs (c : Cursor) : List Seen := signsOf c.rest

/-- The words from the next token on. -/
def phrase (c : Cursor) : List Seen := detach c.signs

theorem phrase_eq (c : Cursor) : c.phrase = detach (signsOf c.ahead) :=
  (detach_signsOf_dropWhile c.rest).symm

theorem length_phrase_le (c : Cursor) : c.phrase.length ≤ c.rest.length := by
  rw [phrase, length_detach]
  exact length_signsOf_le _

/-- The next token is the first word. -/
theorem ahead_cases' (c : Cursor) :
    (c.ahead = [] ∧ c.phrase = []) ∨
      ∃ t tokens, c.ahead = t :: tokens ∧ t.kind.isTrivia = false ∧
        c.phrase = { t.seen with isAttached := false } :: signsOf tokens := by
  cases hahead : c.ahead with
  | nil =>
    rw [phrase_eq, hahead]
    exact .inl ⟨rfl, rfl⟩
  | cons t tokens =>
    have ht : t.kind.isTrivia = false := by
      have hhead := List.head?_dropWhile_not (fun t : PlacedToken => t.kind.isTrivia) c.rest
      rw [← ahead, hahead] at hhead
      simpa using hhead
    refine .inr ⟨t, tokens, rfl, ht, ?_⟩
    rw [phrase_eq, hahead, signsOf_word ht, detach]

theorem next?_map (c : Cursor) :
    c.next?.map (fun t => (t.kind, t.text, t.column)) =
      c.phrase.head?.map fun s => (s.kind, s.text, s.column) := by
  obtain ⟨hahead, hphrase⟩ | ⟨t, tokens, hahead, -, hphrase⟩ := c.ahead_cases' <;>
    rw [next?, hahead, hphrase] <;> rfl

theorem kind?_eq (c : Cursor) : c.kind? = c.phrase.head?.map (·.kind) := by
  have h := congrArg (Option.map (·.1)) c.next?_map
  rwa [Option.map_map, Option.map_map] at h

theorem column?_eq (c : Cursor) : c.column? = c.phrase.head?.map (·.column) := by
  have h := congrArg (Option.map (·.2.2)) c.next?_map
  rwa [Option.map_map, Option.map_map] at h

theorem seesOperator_eq (c : Cursor) (symbol : String) :
    c.seesOperator symbol =
      c.phrase.head?.any fun s => s.kind == .operatorIdent && s.text == symbol := by
  have h := congrArg (Option.any fun x => x.1 == .operatorIdent && x.2.1 == symbol) c.next?_map
  rwa [Option.any_map, Option.any_map] at h

theorem signs_bump (c : Cursor) : c.bump.signs = c.phrase.tail := by
  rw [signs, rest_bump]
  obtain ⟨hahead, hphrase⟩ | ⟨t, tokens, hahead, -, hphrase⟩ := c.ahead_cases' <;>
    rw [hahead, hphrase] <;> rfl

theorem secondKind?_eq (c : Cursor) : c.secondKind? = c.phrase.tail.head?.map (·.kind) := by
  rw [← kind?_bump, kind?_eq, phrase, signs_bump]
  cases c.phrase.tail <;> rfl

@[simp] theorem phrase_skipTrivia (c : Cursor) : c.skipTrivia.phrase = c.phrase := by
  rw [phrase, signs, rest_skipTrivia, ← phrase_eq]

@[simp] theorem errors_bump (c : Cursor) : c.bump.errors = c.errors := by
  cases h : c.ahead with
  | nil => rw [bump_of_ahead_nil h, skipTrivia_eq]
  | cons t tokens => rw [bump_of_ahead h]

end Cursor

-- ---------------------------------------------------------------------------
-- Words of a form
-- ---------------------------------------------------------------------------

/-- The words can be derived from the form, wherever they stand. -/
def Spelt (form : RegularExpression Symbol) (words : List Seen) : Prop :=
  Derives form (words.map Seen.toSign)

namespace Spelt

variable {r r' : RegularExpression Symbol} {n : Nonterminal} {first : Kind} {text : String}

theorem mul (h : Spelt (r * r') words) :
    ∃ w w', words = w ++ w' ∧ Spelt r w ∧ Spelt r' w' := by
  generalize hsigns : words.map Seen.toSign = signs at h
  rw [Spelt, hsigns] at h
  cases h with
  | append h h' =>
    obtain ⟨w, w', rfl, rfl, rfl⟩ := List.map_eq_append_iff.mp hsigns
    exact ⟨w, w', rfl, h, h'⟩

theorem add (h : Spelt (r + r') words) : Spelt r words ∨ Spelt r' words := by
  cases h with
  | left h => exact .inl h
  | right h => exact .inr h

theorem one (h : Spelt 1 words) : words = [] := by
  generalize hsigns : words.map Seen.toSign = signs at h
  rw [Spelt, hsigns] at h
  cases h
  exact List.map_eq_nil_iff.mp hsigns

theorem optional (h : Spelt (Form.optional r) words) : words = [] ∨ Spelt r words :=
  h.add.imp_left one

theorem star (h : Spelt (.star r) words) :
    ∃ parts : List (List Seen), words = parts.flatten ∧ ∀ part ∈ parts, Spelt r part := by
  generalize hsigns : words.map Seen.toSign = signs at h
  generalize hform : RegularExpression.star r = form at h
  rw [Spelt, hsigns] at h
  induction h generalizing words with
  | starNil =>
    rw [List.map_eq_nil_iff.mp hsigns]
    exact ⟨[], rfl, nofun⟩
  | starCons h _ _ ih =>
    cases hform
    obtain ⟨part, words, rfl, rfl, hmore⟩ := List.map_eq_append_iff.mp hsigns
    obtain ⟨parts, rfl, hparts⟩ := ih hmore rfl
    exact ⟨part :: parts, rfl, List.forall_mem_cons.mpr ⟨h, hparts⟩⟩
  | _ => cases hform

theorem rule (h : Spelt (Form.rule n) words) : Spelt n.form words := by
  generalize hsigns : words.map Seen.toSign = signs at h
  rw [Spelt, hsigns] at h
  cases h with
  | rule h => rwa [Spelt, hsigns]

theorem ruleApart (h : Spelt (.char (.ruleApart n first)) words) :
    Spelt (Form.rule n) words ∧ ∀ s ∈ words.head?, s.kind ≠ first := by
  generalize hsigns : words.map Seen.toSign = signs at h
  rw [Spelt, hsigns] at h
  cases h with
  | ruleApart h hfirst =>
    refine ⟨by rw [Spelt, hsigns]; exact .rule h, fun s hs => ?_⟩
    obtain ⟨more, rfl⟩ := List.head?_eq_some_iff.mp hs
    exact hfirst s.toSign (by rw [← hsigns]; rfl)

theorem word (h : Spelt (Form.word kind) words) :
    ∃ s, words = [s] ∧ s.kind = kind ∧ s.isAttached = false := by
  generalize hsigns : words.map Seen.toSign = signs at h
  rw [Spelt, hsigns] at h
  cases h with
  | word h hspaced =>
    obtain ⟨s, rfl, rfl⟩ := List.map_eq_singleton_iff.mp hsigns
    exact ⟨s, rfl, h.kind_eq, hspaced⟩

theorem attached (h : Spelt (Form.attached kind) words) :
    ∃ s, words = [s] ∧ s.kind = kind ∧ s.isAttached = true := by
  generalize hsigns : words.map Seen.toSign = signs at h
  rw [Spelt, hsigns] at h
  cases h with
  | attached h hattached =>
    obtain ⟨s, rfl, rfl⟩ := List.map_eq_singleton_iff.mp hsigns
    exact ⟨s, rfl, h.kind_eq, hattached⟩

theorem operator (h : Spelt (Form.operator text) words) :
    ∃ s, words = [s] ∧ s.kind = .operatorIdent ∧ s.text = text ∧ s.isAttached = false := by
  generalize hsigns : words.map Seen.toSign = signs at h
  rw [Spelt, hsigns] at h
  cases h with
  | operator h hspaced =>
    obtain ⟨s, rfl, rfl⟩ := List.map_eq_singleton_iff.mp hsigns
    exact ⟨s, rfl, h.kind_eq, rfl, hspaced⟩

end Spelt

-- ---------------------------------------------------------------------------
-- First words
-- ---------------------------------------------------------------------------

/-- The words begin behind a gap, with a token of one of the kinds. -/
def Begins (kinds : List Kind) (words : List Seen) : Prop :=
  ∃ s more, words = s :: more ∧ s.kind ∈ kinds ∧ s.isAttached = false

/-- The kinds of the tokens that an operand can start with. -/
def Kind.operandFirsts : List Kind :=
  [.backslash, .ifKw, .caseKw, .letKw, .operatorIdent] ++ atomFirsts

open Kind in
def Nonterminal.firsts : Nonterminal → List Kind
  | .expression | .operand => operandFirsts
  | .application | .access | .atom => atomFirsts
  | .pattern | .cons | .constructor | .atomicPattern | .declaration => argumentFirsts
  | .type | .typeApplication | .typeArgument => typeFirsts
  | .lambda => [.backslash]
  | .ifElse => [.ifKw]
  | .caseOf => [.caseKw]
  | .letIn => [.letKw]
  | .negation => [.operatorIdent]
  | .accessor => [.dot]
  | .parenthesizedExpr | .parenthesizedPattern | .parenthesizedType => [.lParen]
  | .listExpr | .listPattern => [.lBracket]
  | .recordExpr | .recordPattern | .recordType => [.lBrace]
  | .field | .fieldType => [.lowerIdent]
  | .qualifiedValue | .upperCaseName => [.upperIdent]

/-- The kinds that the words of a form begin with, if they begin with one of the kinds at all. -/
def beginsWith (kinds : List Kind) : RegularExpression Symbol → Bool
  | .char (.word kind) => kinds.contains kind
  | .char (.operator _) => kinds.contains .operatorIdent
  | .char (.rule n) | .char (.ruleApart n _) => n.firsts.all kinds.contains
  | .plus form other => beginsWith kinds form && beginsWith kinds other
  | .comp form _ => beginsWith kinds form
  | _ => false

theorem beginsWith_form (n : Nonterminal) : beginsWith n.firsts n.form = true := by
  cases n <;> decide

theorem Derives.begins {form : RegularExpression Symbol} {signs : List Sign} {kinds : List Kind}
    (h : Derives form signs) (hform : beginsWith kinds form = true) :
    ∃ sign more, signs = sign :: more ∧ sign.kind ∈ kinds ∧ sign.isAttached = false := by
  induction h generalizing kinds with
  | word h hspaced =>
    exact ⟨_, [], rfl, by simpa [beginsWith, h.kind_eq] using hform, hspaced⟩
  | operator h hspaced =>
    exact ⟨_, [], rfl, by simpa [beginsWith, h.kind_eq] using hform, hspaced⟩
  | @rule n _ _ ih | @ruleApart n _ _ _ _ ih =>
    obtain ⟨sign, more, rfl, hkind, hspaced⟩ := ih (beginsWith_form n)
    simp only [beginsWith, List.all_eq_true] at hform
    exact ⟨sign, more, rfl, by simpa using hform _ hkind, hspaced⟩
  | left _ ih => exact ih (Bool.and_eq_true_iff.mp hform).1
  | right _ ih => exact ih (Bool.and_eq_true_iff.mp hform).2
  | append _ _ ih _ =>
    obtain ⟨sign, more, rfl, hsign⟩ := ih hform
    exact ⟨sign, more ++ _, rfl, hsign⟩
  | _ => cases hform

theorem Spelt.begins {form : RegularExpression Symbol} (h : Spelt form words) (kinds : List Kind)
    (hform : beginsWith kinds form = true) : Begins kinds words := by
  obtain ⟨sign, more, hsigns, hsign⟩ := Derives.begins h hform
  obtain ⟨s, more, rfl, rfl, -⟩ := List.map_eq_cons_iff.mp hsigns
  exact ⟨s, more, rfl, hsign⟩

theorem Spelt.begins_word (h : Spelt (Form.word kind) words) {kinds : List Kind}
    (hkind : kind ∈ kinds) : Begins kinds words :=
  h.begins kinds (by simpa [beginsWith, Form.word] using hkind)

theorem beginsWith_rule (n : Nonterminal) : beginsWith n.firsts (Form.rule n) = true := by
  cases n <;> decide

end ElmLint.Syntax
