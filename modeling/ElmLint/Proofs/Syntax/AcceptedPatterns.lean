import ElmLint.Proofs.Syntax.Acceptance

/-!
# Patterns are accepted

The pattern of a branch starts in the column of its own block, so only the words behind its first
are known to stand right of the floor.
-/

namespace ElmLint.Syntax

open Cursor Grammar

variable {c : Cursor} {s : Seen} {words more behind v : List Seen} {parts : List (List Seen)}
  {kinds : List Kind} {floor bound : Nat} {pattern cons : Rule}

namespace Kind

/-- What may stand behind a pattern. -/
def patternClosers : List Kind := [.arrow, .eq, .comma, .rParen, .rBracket]

/-- What may stand behind a pattern that can still get a name. -/
def consClosers : List Kind := .asKw :: patternClosers

/-- The tokens that are patterns by themselves. -/
def patternWords : List Kind := [.lowerIdent, .underscore, .number, .string, .char]

end Kind

-- ---------------------------------------------------------------------------
-- First words
-- ---------------------------------------------------------------------------

/-- An atomic pattern is a word, a name, a negative number, or in brackets. -/
theorem Spelt.atomicPattern (h : Spelt (Form.rule .atomicPattern) words) :
    (∃ kind ∈ Kind.patternWords, Spelt (Form.word kind) words) ∨
    Spelt (Form.rule .upperCaseName) words ∨
    Spelt (Form.operator "-" * Form.word .number) words ∨
    Spelt (Form.rule .parenthesizedPattern) words ∨ Spelt (Form.rule .listPattern) words ∨
    Spelt (Form.rule .recordPattern) words := by
  obtain ((h | h) | h) | h := h.rule.add.imp_left (·.add.imp_left (·.add))
  · obtain ((h | h) | h) | h := h.add.imp_left (·.add.imp_left (·.add))
    · obtain ((h | h) | h) | h := h.add.imp_left (·.add.imp_left (·.add))
      · exact .inl ⟨_, by decide, h⟩
      · exact .inl ⟨_, by decide, h⟩
      · exact .inr (.inl h)
      · exact .inl ⟨_, by decide, h⟩
    · exact .inl ⟨_, by decide, h⟩
    · exact .inl ⟨_, by decide, h⟩
    · exact .inr (.inr (.inl h))
  · exact .inr (.inr (.inr (.inl h)))
  · exact .inr (.inr (.inr (.inr (.inl h))))
  · exact .inr (.inr (.inr (.inr (.inr h))))

/-- The words look like a pattern to a rule that is about to read them. -/
def LooksLikePattern (words : List Seen) : Prop :=
  ∀ (c : Cursor) (behind : List Seen), c.phrase = words ++ behind → atPattern c = true

theorem LooksLikePattern.append (h : LooksLikePattern words) (more : List Seen) :
    LooksLikePattern (words ++ more) := by
  intro c behind hc
  rw [List.append_assoc] at hc
  exact h c _ hc

theorem Begins.looksLikePattern (h : Begins kinds words)
    (hkinds : kinds ⊆ [.lowerIdent, .upperIdent, .underscore, .lParen, .lBracket, .lBrace, .number,
      .string, .char]) : LooksLikePattern words := by
  intro c behind hc
  rw [atPattern, (h.mono hkinds).seesAny hc, Bool.true_or]

theorem Spelt.negative (h : Spelt (Form.operator "-" * Form.word .number) words) :
    ∃ minus number, words = [minus, number] ∧ minus.kind = .operatorIdent ∧ minus.text = "-" ∧
      number.kind = .number := by
  obtain ⟨w, w', rfl, hminus, hnumber⟩ := h.mul
  obtain ⟨minus, rfl, hkind, htext, -⟩ := hminus.operator
  obtain ⟨number, rfl, hkind', -⟩ := hnumber.word
  exact ⟨minus, number, rfl, hkind, htext, hkind'⟩

namespace Spelt

theorem looksLikePattern_atomic (h : Spelt (Form.rule .atomicPattern) words) :
    LooksLikePattern words := by
  obtain ⟨kind, hmem, h⟩ | h | h | h | h | h := h.atomicPattern
  · exact (h.begins_word hmem).looksLikePattern (by decide)
  · exact (h.begins [.upperIdent] rfl).looksLikePattern (by decide)
  · obtain ⟨minus, number, rfl, hkind, htext, hnumber⟩ := h.negative
    intro c behind hc
    rw [atPattern, seesOperator_of_phrase hc, secondKind?_of_phrase hc, hkind, htext]
    simp [hnumber]
  · exact (h.begins [.lParen] rfl).looksLikePattern (by decide)
  · exact (h.begins [.lBracket] rfl).looksLikePattern (by decide)
  · exact (h.begins [.lBrace] rfl).looksLikePattern (by decide)

theorem looksLikePattern_cons (h : Spelt (Form.rule .cons) words) : LooksLikePattern words := by
  obtain ⟨w, w', rfl, hconstructor, -⟩ := h.rule.mul
  refine LooksLikePattern.append ?_ w'
  obtain happlied | hatomic := hconstructor.rule.add
  · obtain ⟨name, w, rfl, hname, -⟩ := happlied.mul
    exact ((hname.begins [.upperIdent] rfl).looksLikePattern (by decide)).append w
  · exact hatomic.looksLikePattern_atomic

theorem looksLikePattern (h : Spelt (Form.rule .pattern) words) : LooksLikePattern words := by
  obtain ⟨w, w', rfl, hcons, -⟩ := h.rule.mul
  exact hcons.looksLikePattern_cons.append w'

/-- A name with arguments, or an atomic pattern that is no name. -/
theorem constructorPattern (h : Spelt (Form.rule .constructor) words) :
    (∃ (name : List Seen) (parts : List (List Seen)), words = name ++ parts.flatten ∧
      Spelt (Form.rule .upperCaseName) name ∧
      ∀ part ∈ parts, Spelt (Form.rule .atomicPattern) part) ∨
    (Spelt (Form.rule .atomicPattern) words ∧ Begins
      [.lowerIdent, .underscore, .number, .string, .char, .operatorIdent, .lParen, .lBracket,
        .lBrace] words) := by
  obtain happlied | hatomic := h.rule.add
  · obtain ⟨name, w, rfl, hname, harguments⟩ := happlied.mul
    obtain ⟨parts, rfl, hparts⟩ := harguments.star
    exact .inl ⟨name, parts, rfl, hname, hparts⟩
  · obtain ⟨kind, hmem, h⟩ | h | h | h | h | h := hatomic.atomicPattern
    · exact .inr ⟨hatomic, (h.begins_word hmem).mono (by decide)⟩
    · exact .inl ⟨words, [], by simp, h, nofun⟩
    · exact .inr ⟨hatomic, h.begins _ rfl⟩
    · exact .inr ⟨hatomic, h.begins _ rfl⟩
    · exact .inr ⟨hatomic, h.begins _ rfl⟩
    · exact .inr ⟨hatomic, h.begins _ rfl⟩

end Spelt

theorem not_atPattern_of_closes (hc : c.phrase = v) (hv : Closes kinds v)
    (hkinds : ∀ kind ∈ kinds, kind ∉ Kind.argumentFirsts) : atPattern c = false := by
  rw [atPattern, seesAny_of_closes hc hv, seesOperator_of_closes hc hv, Bool.false_and,
    Bool.or_false]
  · exact fun h => hkinds _ h (by decide)
  · have hsubset : [.lowerIdent, .upperIdent, .underscore, .lParen, .lBracket, .lBrace, .number,
      .string, .char] ⊆ Kind.argumentFirsts := by decide
    exact fun kind hkind h => hkinds kind hkind (hsubset h)

theorem not_atPattern_of_operator (hc : c.phrase = s :: more) (hkind : s.kind = .operatorIdent)
    (htext : s.text ≠ "-") : atPattern c = false := by
  rw [atPattern, seesAny_of_phrase hc, seesOperator_of_phrase hc, hkind,
    beq_eq_false_iff_ne.mpr htext]
  rfl

-- ---------------------------------------------------------------------------
-- Atomic patterns
-- ---------------------------------------------------------------------------

/-- Names with commas between them, from the first on. -/
theorem goesOn_patternFields (hs : s.kind = .lowerIdent) (hspaced : s.isAttached = false)
    (hparts : ∀ part ∈ parts, Spelt (Form.word .comma * Form.word .lowerIdent) part)
    (hclose : Closes [.rBrace] behind) {rounds : Nat} (hrounds : parts.length < rounds) :
    GoesOn (patternFields rounds) (s :: parts.flatten) behind := by
  induction parts generalizing s rounds with
  | nil =>
    obtain ⟨rounds, rfl⟩ := Nat.exists_eq_succ_of_ne_zero (Nat.ne_zero_of_lt hrounds)
    intro c hc
    have hphrase : c.phrase = [s] ++ behind := phrase_of_signs hc (isSpaced_cons hspaced)
    obtain ⟨hsigns, herrors⟩ := takes_tokenNode .lowerPattern s behind c hphrase
    rw [patternFields, sees_of_phrase hphrase, hs, if_pos (beq_self_eq_true _)]
    have hcomma : (tokenNode .lowerPattern c).sees .comma = false :=
      sees_of_closes (phrase_of_signs hsigns hclose.isSpaced) hclose (by decide)
    simp only [hcomma, Bool.false_eq_true, if_false]
    exact ⟨hsigns, herrors⟩
  | cons part parts ih =>
    obtain ⟨rounds, rfl⟩ := Nat.exists_eq_succ_of_ne_zero (Nat.ne_zero_of_lt hrounds)
    obtain ⟨hpart, hparts'⟩ := List.forall_mem_cons.mp hparts
    obtain ⟨w, w', rfl, hcomma, hname⟩ := hpart.mul
    obtain ⟨comma, rfl, hcommaKind, hcommaSpaced⟩ := hcomma.word
    obtain ⟨name, rfl, hnameKind, hnameSpaced⟩ := hname.word
    have hmore := ih hnameKind hnameSpaced hparts' (Nat.lt_of_succ_lt_succ hrounds)
    intro c hc
    have hphrase : c.phrase = [s] ++ (comma :: (name :: parts.flatten ++ behind)) :=
      phrase_of_signs hc (isSpaced_cons hspaced)
    obtain ⟨hsigns, herrors⟩ := takes_tokenNode .lowerPattern s _ c hphrase
    have hphrase' := phrase_of_signs hsigns (isSpaced_cons hcommaSpaced)
    obtain ⟨hsigns', herrors'⟩ := Takes.bumped hmore _ hphrase'
    rw [patternFields, sees_of_phrase hphrase, hs, if_pos (beq_self_eq_true _)]
    simp only [sees_of_phrase hphrase', hcommaKind, beq_self_eq_true, if_true]
    exact ⟨hsigns', herrors'.trans herrors⟩

theorem takes_recordPattern (h : Spelt (Form.rule .recordPattern) words) (behind : List Seen) :
    Takes recordPattern words behind := by
  obtain ⟨w, w', rfl, hfront, hclose⟩ := h.rule.mul
  obtain ⟨w, names, rfl, hopen, hnames⟩ := hfront.mul
  obtain ⟨op, rfl, -⟩ := hopen.word
  obtain ⟨close, rfl, hkind, hspaced⟩ := hclose.word
  obtain ⟨first, w, rfl, hfirst, hmore⟩ := hnames.mul
  obtain ⟨name, rfl, hnameKind, hnameSpaced⟩ := hfirst.word
  obtain ⟨parts, rfl, hparts⟩ := hmore.star
  have hne (part : List Seen) (hpart : part ∈ parts) : part ≠ [] :=
    ((hparts part hpart).begins [.comma] rfl).ne_nil
  have hclose : Closes [.rBrace] (close :: behind) := closes_cons (by simp [hkind]) hspaced
  have hfields : GoesOn (fun c => patternFields (c.rest.length + 1) c) (name :: parts.flatten)
      (close :: behind) := by
    intro c hc
    have hle := length_signsOf_le c.rest
    rw [← signs, hc, List.length_append, List.length_cons] at hle
    have := length_le_length_flatten hne
    exact goesOn_patternFields hnameKind hnameSpaced hparts hclose (by omega) c hc
  rw [List.append_assoc]
  exact .node (.bumped (hfields.trans (goesOn_expect hkind behind)))

section

variable (hpattern : TakesAll (Form.rule .pattern) Kind.patternClosers floor bound pattern)
include hpattern

theorem takes_atomicPattern (h : Spelt (Form.rule .atomicPattern) words)
    (hlength : words.length ≤ bound + 1) (hline : IsLine floor (words ++ behind).tail)
    (hspaced : IsSpaced behind) : Takes (atomicPattern pattern) words behind := by
  intro c hc
  have hc' : c.skipTrivia.phrase = words ++ behind := (phrase_skipTrivia c).trans hc
  rw [← errors_skipTrivia c]
  unfold atomicPattern
  generalize c.skipTrivia = c at hc'
  obtain ⟨kind, hmem, hword⟩ | hname | hnegative | hparens | hlist | hrecord := h.atomicPattern
  · obtain ⟨s, rfl, rfl, -⟩ := hword.word
    simp only [Kind.patternWords, List.mem_cons, List.not_mem_nil, or_false] at hmem
    rcases hmem with hkind | hkind | hkind | hkind | hkind <;>
      simp only [kind?_of_phrase hc', hkind] <;> exact takes_tokenNode _ s behind c hc'
  · obtain ⟨s, more, rfl, hkind, -⟩ := hname.begins [.upperIdent] rfl
    simp only [kind?_of_phrase hc', List.mem_singleton.mp hkind]
    exact (takes_upperCaseName hname hspaced).node c hc'
  · obtain ⟨minus, number, rfl, hkind, htext, hnumberKind⟩ := hnegative.negative
    simp only [kind?_of_phrase hc', seesOperator_of_phrase hc', hkind, htext, beq_self_eq_true,
      Bool.and_self, if_true]
    exact Takes.node (.bumped (goesOn_expect hnumberKind behind)) c hc'
  · obtain ⟨s, more, rfl, hkind, -⟩ := hparens.begins [.lParen] rfl
    simp only [kind?_of_phrase hc', List.mem_singleton.mp hkind]
    exact takes_tupleOrGroup (beginsWith_rule .pattern) hpattern (by decide) (by decide) (by decide)
      hparens.rule hlength hline .tuplePattern .parenthesizedPattern c hc'
  · obtain ⟨s, more, rfl, hkind, -⟩ := hlist.begins [.lBracket] rfl
    simp only [kind?_of_phrase hc', List.mem_singleton.mp hkind]
    exact Takes.node (takes_list (beginsWith_rule .pattern) hpattern (by decide) (by decide)
      (by decide) hlist.rule hlength hline) c hc'
  · obtain ⟨s, more, rfl, hkind, -⟩ := hrecord.begins [.lBrace] rfl
    simp only [kind?_of_phrase hc', List.mem_singleton.mp hkind]
    exact takes_recordPattern hrecord behind c hc'

-- ---------------------------------------------------------------------------
-- Whole patterns
-- ---------------------------------------------------------------------------

theorem takes_constructorPattern (h : Spelt (Form.rule .constructor) words)
    (hlength : words.length ≤ bound + 1) (hline : IsLine floor (words ++ behind).tail)
    (hspaced : IsSpaced behind) (hstop : ∀ c : Cursor, c.phrase = behind → atPattern c = false) :
    Takes (constructorPattern floor pattern) words behind := by
  obtain ⟨name, parts, rfl, hname, hparts⟩ | ⟨hatomic, hbegin⟩ := h.constructorPattern
  · obtain ⟨s, more, rfl, -⟩ := hname.begins [.upperIdent] rfl
    have hbegins (part : List Seen) (hpart : part ∈ parts) : Begins Kind.argumentFirsts part :=
      (hparts part hpart).begins _ (beginsWith_rule _)
    have hline' : IsLine floor (parts.flatten ++ behind) :=
      hline.sublist (List.IsSuffix.sublist ⟨more, by simp⟩)
    refine takes_applied hbegins hspaced hline' (fun c part v hpart hc hline => ?_)
      (fun c hc => ?_) (fun part v hpart hline hspaced => ?_) hname .unionPattern
    · rw [atPatternArgument, (hparts part hpart).looksLikePattern_atomic c v hc,
        (hbegins part hpart).not_atLayoutEnd hc hline]
      rfl
    · rw [atPatternArgument, hstop c hc, Bool.false_and]
    · have hle := length_part_le hpart
      rw [List.length_append] at hlength
      exact takes_atomicPattern hpattern (hparts part hpart) (by omega)
        (hline.sublist (List.tail_sublist _)) hspaced
  · refine (takes_atomicPattern hpattern hatomic hlength hline hspaced).ite_neg fun c hc => ?_
    exact sees_of_closes hc hbegin.closes (by decide)

theorem takes_consOver (hcons : TakesAll (Form.rule .cons) Kind.consClosers floor bound cons)
    (h : Spelt (Form.rule .cons) words) (hlength : words.length ≤ bound + 1)
    (hline : IsLine floor (words ++ behind).tail) (hclose : Closes Kind.consClosers behind) :
    Takes (consOver floor pattern cons) words behind := by
  obtain ⟨w, w', rfl, hfirst, hmore⟩ := h.rule.mul
  have hbegin := hfirst.begins _ (beginsWith_rule _)
  refine .fromHere fun start => ?_
  rw [List.append_assoc] at hline
  rw [List.length_append] at hlength
  have hline' : IsLine floor (w' ++ behind) := by
    obtain ⟨s, more, rfl, -⟩ := hbegin
    exact hline.sublist (List.sublist_append_right more _)
  suffices hstop : IsSpaced (w' ++ behind) ∧
      (∀ c : Cursor, c.phrase = w' ++ behind → atPattern c = false) ∧
      GoesOn (fun c =>
          if c.seesOperator "::" && !c.atLayoutEnd floor then
            wrap start .consPattern (fun c =>
              let c := c.bump
              if atPattern c then cons c else c.error .expectedPatternAfterCons) c
          else c)
        w' behind by
    obtain ⟨hspaced, hstop, hrest⟩ := hstop
    exact (takes_constructorPattern hpattern hfirst (by omega) hline hspaced hstop).trans hrest
  obtain rfl | htail := hmore.optional
  · have hnot (c : Cursor) (hc : c.phrase = behind) : atPattern c = false :=
      not_atPattern_of_closes hc hclose (by decide)
    refine ⟨hclose.isSpaced, hnot, (GoesOn.stay behind).ite_neg fun c hc => ?_⟩
    rw [seesOperator_of_closes (phrase_of_signs hc hclose.isSpaced) hclose (by decide),
      Bool.false_and]
  · obtain ⟨w₁, w₂, rfl, hoperator, hnext⟩ := htail.mul
    obtain ⟨s, rfl, hkind, htext, hspaced⟩ := hoperator.operator
    have hnot (c : Cursor) (hc : c.phrase = s :: (w₂ ++ behind)) : atPattern c = false :=
      not_atPattern_of_operator hc hkind (by rw [htext]; decide)
    refine ⟨isSpaced_cons hspaced, hnot,
      GoesOn.ite_pos (.wrap ?_ start .consPattern) fun c hc => ?_⟩
    · have htake : Takes cons w₂ behind :=
        hcons w₂ behind hnext (by rw [List.length_append] at hlength; simp at hlength; omega)
          (hline'.sublist (List.sublist_cons_self s _)) hclose
      have hsees : GoesOn (fun c =>
          if atPattern c then cons c else c.error .expectedPatternAfterCons) w₂ behind :=
        (htake.ite_pos fun c hc => hnext.looksLikePattern_cons c behind hc).goesOn
          (hnext.begins _ (beginsWith_rule _)).isSpaced
      exact (Takes.bumped hsees).goesOn (isSpaced_cons hspaced)
    · have hphrase := phrase_of_signs hc (isSpaced_cons hspaced)
      rw [seesOperator_of_phrase hphrase, not_atLayoutEnd_of_isLine hphrase hline', hkind, htext]
      rfl

theorem takes_patternOver (hcons : TakesAll (Form.rule .cons) Kind.consClosers floor bound cons)
    (h : Spelt (Form.rule .pattern) words) (hlength : words.length ≤ bound + 1)
    (hline : IsLine floor (words ++ behind).tail) (hclose : Closes Kind.patternClosers behind) :
    Takes (patternOver floor pattern cons) words behind := by
  obtain ⟨w, w', rfl, hfirst, hmore⟩ := h.rule.mul
  refine .fromHere fun start => ?_
  rw [List.append_assoc] at hline
  rw [List.length_append] at hlength
  suffices hname : Closes Kind.consClosers (w' ++ behind) ∧
      GoesOn (fun c =>
          if c.sees .asKw then
            wrap start .asPattern (fun c =>
              let c := c.bump
              if c.sees .lowerIdent then tokenNode .lowerPattern c
              else c.error .expectedNameAfterAs) c
          else c)
        w' behind from
    (takes_consOver hpattern hcons hfirst (by omega) hline hname.1).trans hname.2
  obtain rfl | hname := hmore.optional
  · refine ⟨hclose.mono (List.subset_cons_self _ _), (GoesOn.stay behind).ite_neg fun c hc => ?_⟩
    exact sees_of_closes (phrase_of_signs hc hclose.isSpaced) hclose (by decide)
  · obtain ⟨w₁, w₂, rfl, has, hlower⟩ := hname.mul
    obtain ⟨s, rfl, hkind, hspaced⟩ := has.word
    obtain ⟨name, rfl, hnameKind, hnameSpaced⟩ := hlower.word
    refine ⟨closes_cons (by rw [hkind]; decide) hspaced,
      GoesOn.ite_pos (.wrap ?_ start .asPattern) fun c hc => ?_⟩
    · have hsees : GoesOn (fun c =>
          if c.sees .lowerIdent then tokenNode .lowerPattern c
          else c.error .expectedNameAfterAs) [name] behind := by
        refine Takes.goesOn (.ite_pos (takes_tokenNode .lowerPattern name behind) fun c hc => ?_)
          (isSpaced_cons hnameSpaced)
        rw [sees_of_phrase hc, hnameKind]
        rfl
      exact (Takes.bumped hsees).goesOn (isSpaced_cons hspaced)
    · rw [sees_of_phrase (phrase_of_signs hc (isSpaced_cons hspaced)), hkind]
      rfl

end

theorem takesAll_patternWithin (depth : Nat) :
    TakesAll (Form.rule .pattern) Kind.patternClosers floor depth (patternWithin floor depth) ∧
      TakesAll (Form.rule .cons) Kind.consClosers floor depth (consWithin floor depth) := by
  induction depth with
  | zero =>
    refine ⟨fun words behind h hlength => ?_, fun words behind h hlength => ?_⟩ <;>
    · have hpos := List.length_pos_iff.mpr (h.begins _ (beginsWith_rule _)).ne_nil
      omega
  | succ depth ih =>
    obtain ⟨hpattern, hcons⟩ := ih
    exact ⟨fun words behind h hlength hline =>
        takes_patternOver hpattern hcons h hlength (hline.sublist (List.tail_sublist _)),
      fun words behind h hlength hline =>
        takes_consOver hpattern hcons h hlength (hline.sublist (List.tail_sublist _))⟩

theorem takes_pattern (h : Spelt (Form.rule .pattern) words)
    (hline : IsLine floor (words ++ behind).tail) (hclose : Closes Kind.patternClosers behind) :
    Takes (Grammar.pattern floor) words behind := by
  intro c hc
  obtain ⟨hpattern, hcons⟩ := takesAll_patternWithin c.rest.length
  refine takes_patternOver hpattern hcons h ?_ hline hclose c hc
  have hle := c.length_phrase_le
  rw [hc, List.length_append] at hle
  omega

theorem takes_parameter (h : Spelt (Form.rule .atomicPattern) words)
    (hline : IsLine floor (words ++ behind).tail) (hspaced : IsSpaced behind) :
    Takes (parameter floor) words behind :=
  takes_atomicPattern
    (fun _ _ h _ hline hclose => takes_pattern h (hline.sublist (List.tail_sublist _)) hclose) h
    (Nat.le_succ _) hline hspaced

end ElmLint.Syntax
