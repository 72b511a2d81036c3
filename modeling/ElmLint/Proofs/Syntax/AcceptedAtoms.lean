import ElmLint.Proofs.Syntax.Acceptance

/-!
# Atoms and applications are accepted

A capital name is read together with the first field behind it: whether it names a value or a
constructor is decided by what is attached to it.
-/

namespace ElmLint.Syntax

open Cursor Grammar

variable {c : Cursor} {s dot name : Seen} {words more behind v : List Seen}
  {parts : List (List Seen)} {tokens : List PlacedToken} {kinds : List Kind} {floor bound : Nat}
  {expr : Rule}

namespace Kind

/-- What may stand behind an expression. -/
def exprClosers : List Kind :=
  [.rParen, .rBracket, .rBrace, .comma, .thenKw, .elseKw, .ofKw, .inKw]

/-- What may stand behind an operand that can be followed by an operator. -/
def operandClosers : List Kind := .operatorIdent :: exprClosers

/-- The tokens that are atoms by themselves. -/
def atomWords : List Kind := [.lowerIdent, .number, .string, .char]

end Kind

-- ---------------------------------------------------------------------------
-- The parts of an application
-- ---------------------------------------------------------------------------

/-- The words are an atom that is no capital name. -/
inductive IsPlainAtom (words : List Seen) : Prop
  | word {kind : Kind} (hmem : kind ∈ Kind.atomWords) (h : Spelt (Form.word kind) words)
  | accessor (h : Spelt (Form.rule .accessor) words)
  | parenthesized (h : Spelt (Form.rule .parenthesizedExpr) words)
  | list (h : Spelt (Form.rule .listExpr) words)
  | record (h : Spelt (Form.rule .recordExpr) words)

namespace Spelt

theorem atom (h : Spelt (Form.rule .atom) words) :
    IsPlainAtom words ∨ Spelt (Form.rule .qualifiedValue) words := by
  obtain (((h | h) | h) | h) | h := h.rule.add.imp_left (·.add.imp_left (·.add.imp_left (·.add)))
  · obtain (((h | h) | h) | h) | h := h.add.imp_left (·.add.imp_left (·.add.imp_left (·.add)))
    · exact .inl (.word (by decide) h)
    · exact .inr h
    · exact .inl (.word (by decide) h)
    · exact .inl (.word (by decide) h)
    · exact .inl (.word (by decide) h)
  · exact .inl (.accessor h)
  · exact .inl (.parenthesized h)
  · exact .inl (.list h)
  · exact .inl (.record h)

/-- A plain atom or a capital name, and fields. -/
theorem access (h : Spelt (Form.rule .access) words) :
    ∃ (w : List Seen) (fields : List (List Seen)), words = w ++ fields.flatten ∧
      (∀ field ∈ fields, Spelt (Form.attached .dot * Form.attached .lowerIdent) field) ∧
      (IsPlainAtom w ∨ Spelt (Form.rule .upperCaseName) w) := by
  obtain ⟨w, w', rfl, hatom, hmore⟩ := h.rule.mul
  obtain ⟨fields, rfl, hfields⟩ := hmore.star
  obtain hplain | hqualified := hatom.atom
  · exact ⟨w, fields, rfl, hfields, .inl hplain⟩
  · obtain ⟨name, field, rfl, hname, hfield⟩ := hqualified.rule.mul
    obtain rfl | hfield := hfield.optional
    · exact ⟨name, fields, by simp, hfields, .inr hname⟩
    · exact ⟨name, field :: fields, by simp, List.forall_mem_cons.mpr ⟨hfield, hfields⟩, .inr hname⟩

theorem accessor (h : Spelt (Form.rule .accessor) words) :
    ∃ dot name, words = [dot, name] ∧ dot.kind = .dot ∧ name.kind = .lowerIdent := by
  obtain ⟨w, w', rfl, hdot, hname⟩ := h.rule.mul
  obtain ⟨dot, rfl, hkind, -⟩ := hdot.word
  obtain hname | hname := hname.add
  · obtain ⟨name, rfl, hkind', -⟩ := hname.word
    exact ⟨dot, name, rfl, hkind, hkind'⟩
  · obtain ⟨name, rfl, hkind', -⟩ := hname.attached
    exact ⟨dot, name, rfl, hkind, hkind'⟩

end Spelt

/-- The words look like an atom to a rule that is about to read them. -/
def LooksLikeAtom (words : List Seen) : Prop :=
  ∀ (c : Cursor) (behind : List Seen), c.phrase = words ++ behind → atAtom c = true

theorem LooksLikeAtom.append (h : LooksLikeAtom words) (more : List Seen) :
    LooksLikeAtom (words ++ more) := by
  intro c behind hc
  rw [List.append_assoc] at hc
  exact h c _ hc

theorem Begins.looksLikeAtom (h : Begins kinds words)
    (hkinds : kinds ⊆ [.lowerIdent, .upperIdent, .number, .string, .char, .lParen, .lBracket,
      .lBrace]) : LooksLikeAtom words := by
  intro c behind hc
  rw [atAtom, (h.mono hkinds).seesAny hc, Bool.true_or]

theorem IsPlainAtom.looksLikeAtom (h : IsPlainAtom words) : LooksLikeAtom words := by
  cases h with
  | word hmem h => exact (h.begins_word hmem).looksLikeAtom (by decide)
  | accessor h =>
    obtain ⟨dot, name, rfl, hkind, hkind'⟩ := h.accessor
    intro c behind hc
    rw [atAtom, seesBoth_of_phrase hc, hkind]
    simp [hkind']
  | parenthesized h => exact (h.begins [.lParen] rfl).looksLikeAtom (by decide)
  | list h => exact (h.begins [.lBracket] rfl).looksLikeAtom (by decide)
  | record h => exact (h.begins [.lBrace] rfl).looksLikeAtom (by decide)

theorem Spelt.looksLikeAtom (h : Spelt (Form.rule .access) words) : LooksLikeAtom words := by
  obtain ⟨w, fields, rfl, -, hplain | hname⟩ := h.access
  · exact hplain.looksLikeAtom.append _
  · exact ((hname.begins [.upperIdent] rfl).looksLikeAtom (by decide)).append _

theorem not_atAtom_of_closes (hc : c.phrase = v) (hv : Closes Kind.operandClosers v) :
    atAtom c = false := by
  rw [atAtom, seesAny_of_closes hc hv (by decide), seesBoth_of_closes hc hv (by decide)]
  rfl

-- ---------------------------------------------------------------------------
-- Capital names
-- ---------------------------------------------------------------------------

/-- Looking for a small letter passes over the segments of a capital name. -/
theorem continuesToValue_of_segments
    (hparts : ∀ part ∈ parts, Spelt (Form.attached .dot * Form.attached .upperIdent) part)
    (htokens : signsOf tokens = parts.flatten ++ v) :
    ∃ tokens', signsOf tokens' = v ∧ continuesToValue tokens = continuesToValue tokens' := by
  induction parts generalizing tokens with
  | nil => exact ⟨tokens, htokens, rfl⟩
  | cons part parts ih =>
    obtain ⟨hpart, hmore⟩ := List.forall_mem_cons.mp hparts
    obtain ⟨dot, name, rfl, hdot, hname, hattached, hattached'⟩ := hpart.segment
    obtain ⟨t, rest, rfl, -, rfl, hrest⟩ := exists_token_of_signsOf htokens hattached
    obtain ⟨t', rest, rfl, -, rfl, hrest'⟩ := exists_token_of_signsOf hrest hattached'
    obtain ⟨tokens', hsigns, heq⟩ := ih hmore hrest'
    refine ⟨tokens', hsigns, ?_⟩
    have hdot : t.kind = .dot := hdot
    have hname : t'.kind = .upperIdent := hname
    rw [continuesToValue, if_pos hdot, if_pos hname, heq]

theorem continuesToValue_of_field
    (htokens : signsOf tokens = dot :: name :: v) (hdot : dot.kind = .dot)
    (hname : name.kind = .lowerIdent) (hattached : dot.isAttached = true)
    (hattached' : name.isAttached = true) : continuesToValue tokens = true := by
  obtain ⟨t, rest, rfl, -, rfl, hrest⟩ := exists_token_of_signsOf htokens hattached
  obtain ⟨t', rest, rfl, -, rfl, -⟩ := exists_token_of_signsOf hrest hattached'
  have hdot : t.kind = .dot := hdot
  have hname : t'.kind = .lowerIdent := hname
  rw [continuesToValue, if_pos hdot, hname]
  rfl

theorem not_continuesToValue_of_isSpaced (h : IsSpaced (signsOf tokens)) :
    continuesToValue tokens = false := by
  unfold continuesToValue
  split
  · rename_i t t' tokens
    have hne : t.kind ≠ .dot := by
      intro hkind
      rw [signsOf_word (by rw [hkind]; rfl)] at h
      cases h _ rfl
    rw [if_neg hne]
  · rfl

theorem namesValue_of_phrase (hc : c.phrase = s :: v) (hkind : s.kind = .upperIdent) :
    ∃ tokens, signsOf tokens = v ∧ namesValue c = continuesToValue tokens := by
  obtain ⟨-, hphrase⟩ | ⟨t, tokens, hahead, -, hphrase⟩ := c.ahead_cases'
  · rw [hphrase] at hc
    cases hc
  · rw [hphrase, List.cons.injEq] at hc
    obtain ⟨rfl, rfl⟩ := hc
    have hkind : t.kind = .upperIdent := hkind
    refine ⟨tokens, rfl, ?_⟩
    rw [namesValue, hahead]
    simp [hkind]

/-- Capital segments are passed over up to the one with a small letter. -/
theorem goesOn_valueSegments
    (hparts : ∀ part ∈ parts, Spelt (Form.attached .dot * Form.attached .upperIdent) part)
    (hdot : dot.kind = .dot) (hname : name.kind = .lowerIdent) (hattached : dot.isAttached = true)
    (hattached' : name.isAttached = true) {rounds : Nat} (hrounds : parts.length < rounds) :
    GoesOn (valueSegments rounds) (parts.flatten ++ [dot, name]) behind := by
  induction parts generalizing rounds with
  | nil =>
    obtain ⟨rounds, rfl⟩ := Nat.exists_eq_succ_of_ne_zero (Nat.ne_zero_of_lt hrounds)
    intro c hc
    have htouches := touches_of_signs hc hattached hattached'
    rw [valueSegments, htouches, htouches, hdot, hname]
    exact ((goesOn_bump dot ([name] ++ behind)).trans (goesOn_bump name behind)) c hc
  | cons part parts ih =>
    obtain ⟨rounds, rfl⟩ := Nat.exists_eq_succ_of_ne_zero (Nat.ne_zero_of_lt hrounds)
    obtain ⟨hpart, hmore⟩ := List.forall_mem_cons.mp hparts
    obtain ⟨first, second, rfl, hfirst, hsecond, htouch, htouch'⟩ := hpart.segment
    intro c hc
    rw [valueSegments, touches_of_signs hc htouch htouch', hfirst, hsecond]
    have hbumps := (goesOn_bump first ([second] ++ (parts.flatten ++ [dot, name] ++ behind))).trans
      (goesOn_bump second (parts.flatten ++ [dot, name] ++ behind))
    exact (hbumps.trans (ih hmore (Nat.lt_of_succ_lt_succ hrounds))) c (by simpa using hc)

theorem takes_constructorName (h : Spelt (Form.rule .upperCaseName) words)
    (hspaced : IsSpaced behind) : Takes qualifiedValue words behind := by
  refine (takes_upperCaseName h hspaced).node.ite_neg fun c hc => ?_
  obtain ⟨w, w', rfl, hname, hsegments⟩ := h.rule.mul
  obtain ⟨s, rfl, hkind, -⟩ := hname.word
  obtain ⟨parts, rfl, hparts⟩ := hsegments.star
  obtain ⟨tokens, htokens, heq⟩ := namesValue_of_phrase hc hkind
  obtain ⟨tokens, rfl, heq'⟩ := continuesToValue_of_segments hparts htokens
  rw [heq, heq', not_continuesToValue_of_isSpaced hspaced]

theorem takes_valueName (h : Spelt (Form.rule .upperCaseName) words)
    (hfield : Spelt (Form.attached .dot * Form.attached .lowerIdent) more) (behind : List Seen) :
    Takes qualifiedValue (words ++ more) behind := by
  obtain ⟨w, w', rfl, hname, hsegments⟩ := h.rule.mul
  obtain ⟨s, rfl, hkind, -⟩ := hname.word
  obtain ⟨parts, rfl, hparts⟩ := hsegments.star
  obtain ⟨dot, name, rfl, hdot, hlower, hattached, hattached'⟩ := hfield.segment
  have hne (part : List Seen) (hpart : part ∈ parts) : part ≠ [] := by
    obtain ⟨_, _, rfl, -⟩ := (hparts part hpart).segment
    exact List.cons_ne_nil _ _
  have hsegments : Takes (fun c => valueSegments c.rest.length c.bump)
      ([s] ++ (parts.flatten ++ [dot, name])) behind := by
    intro c hc
    have hle := c.length_phrase_le
    have hle' := length_le_length_flatten hne
    rw [hc] at hle
    simp only [List.length_append, List.length_cons, List.length_nil] at hle
    exact Takes.bumped
      (goesOn_valueSegments hparts hdot hlower hattached hattached' (by omega)) c hc
  rw [List.append_assoc]
  refine Takes.ite_pos (.node (.node hsegments)) fun c hc => ?_
  have hc' : c.phrase = s :: (parts.flatten ++ (dot :: name :: behind)) := by simpa using hc
  obtain ⟨tokens, htokens, heq⟩ := namesValue_of_phrase hc' hkind
  obtain ⟨tokens, htokens', heq'⟩ := continuesToValue_of_segments hparts htokens
  rw [heq, heq', continuesToValue_of_field htokens' hdot hlower hattached hattached']

-- ---------------------------------------------------------------------------
-- Brackets
-- ---------------------------------------------------------------------------

namespace Spelt

/-- An operand is closed, or goes on to the end of an expression. -/
theorem operand (h : Spelt (Form.rule .operand) words) :
    (Spelt (Form.rule .negation) words ∨ Spelt (Form.rule .application) words) ∨
      (Spelt (Form.rule .lambda) words ∨ Spelt (Form.rule .ifElse) words ∨
        Spelt (Form.rule .caseOf) words ∨ Spelt (Form.rule .letIn) words) := by
  obtain ((h | h) | h) | h := h.rule.add.imp_left (·.add.imp_left (·.add))
  · obtain (h | h) | h := h.add.imp_left (·.add)
    · exact .inr (.inl h)
    · exact .inr (.inr (.inl h))
    · exact .inr (.inr (.inr (.inl h)))
  · exact .inr (.inr (.inr (.inr h)))
  · exact .inl (.inl h)
  · exact .inl (.inr h)

theorem negation (h : Spelt (Form.rule .negation) words) :
    ∃ minus w, words = minus :: w ∧ minus.kind = .operatorIdent ∧ minus.text = "-" ∧
      Spelt (Form.rule .access) w := by
  obtain ⟨w, w', rfl, hminus, haccess⟩ := h.rule.mul
  obtain ⟨minus, rfl, hkind, htext, -⟩ := hminus.operator
  exact ⟨minus, w', rfl, hkind, htext, haccess⟩

/-- An operator at the front of an expression has something to stand for. -/
theorem second_ne_rParen (h : Spelt (Form.rule .expression) (s :: words))
    (hkind : s.kind = .operatorIdent) (v : List Seen) :
    (words ++ v).head?.map (·.kind) ≠ some .rParen := by
  obtain ⟨w, w', heq, hoperand, -⟩ := h.rule.mul
  have hnot {kinds : List Kind} (hbegin : Begins kinds w) (hkinds : .operatorIdent ∉ kinds) :
      False := by
    obtain ⟨first, more, rfl, hfirst, -⟩ := hbegin
    obtain ⟨rfl, -⟩ := List.cons.inj heq
    exact hkinds (hkind ▸ hfirst)
  obtain (hnegation | happlication) | hlambda | hif | hcase | hlet := hoperand.operand
  · obtain ⟨minus, w, rfl, -, -, haccess⟩ := hnegation.negation
    obtain ⟨first, more, rfl, hfirst, -⟩ := haccess.begins _ (beginsWith_rule _)
    obtain ⟨-, rfl⟩ := List.cons.inj heq
    intro hsecond
    have hsecond : first.kind = .rParen := Option.some.inj hsecond
    rw [hsecond] at hfirst
    revert hfirst
    decide
  · exact (hnot (happlication.begins _ (beginsWith_rule _)) (by decide)).elim
  · exact (hnot (hlambda.begins _ (beginsWith_rule _)) (by decide)).elim
  · exact (hnot (hif.begins _ (beginsWith_rule _)) (by decide)).elim
  · exact (hnot (hcase.begins _ (beginsWith_rule _)) (by decide)).elim
  · exact (hnot (hlet.begins _ (beginsWith_rule _)) (by decide)).elim

end Spelt

section

variable (hexpr : TakesAll (Form.rule .expression) Kind.exprClosers floor bound expr)
include hexpr

theorem takes_parenthesizedExpr (h : Spelt (Form.rule .parenthesizedExpr) words)
    (hlength : words.length ≤ bound + 1) (hline : IsLine floor (words ++ behind).tail) :
    Takes (parenthesizedExpr expr) words behind := by
  let inside (start : Nat) : Rule := fun c =>
    if c.seesBoth .operatorIdent .rParen then
      wrap start .operatorAsFunctionExpr (fun c => c.bump.bump) c
    else
      let c := expr c
      if c.sees .comma then
        wrap start .tupleExpr (fun c =>
          (repeatWhile (·.sees .comma) (fun c => expr c.bump) c).expect .rParen) c
      else wrap start .parenthesizedExpr (·.expect .rParen) c
  obtain hgroup | hfunction := h.rule.add
  · refine takes_parenthesized (beginsWith_rule .expression) inside (by decide) hgroup
      fun start w close hw hlt hle hkind hspaced => ?_
    have hrest := goesOn_tupleOrGroup hexpr (beginsWith_rule .expression) (by decide) (by decide)
      (by decide) hkind hspaced hw (by omega) (hline.sublist hle) start .tupleExpr
      .parenthesizedExpr
    refine hrest.ite_neg fun c hc => ?_
    obtain ⟨w, w', rfl, hfirst, -⟩ := hw.mul
    obtain ⟨s, more, rfl, -, hattached⟩ := hfirst.begins _ (beginsWith_rule _)
    have hphrase : c.phrase = s :: (more ++ (w' ++ close :: behind)) := by
      simpa using phrase_of_signs hc (isSpaced_cons hattached)
    rw [seesBoth_of_phrase hphrase]
    by_cases hs : s.kind = .operatorIdent
    · rw [beq_eq_false_iff_ne.mpr (hfirst.second_ne_rParen hs _), Bool.and_false]
    · rw [beq_eq_false_iff_ne.mpr hs, Bool.false_and]
  · obtain ⟨w, w', rfl, hfront, hclose⟩ := hfunction.mul
    obtain ⟨w, w'', rfl, hopen, hoperator⟩ := hfront.mul
    obtain ⟨op, rfl, -⟩ := hopen.word
    obtain ⟨s, rfl, hkind, hspaced⟩ := hoperator.word
    obtain ⟨close, rfl, hkind', -⟩ := hclose.word
    refine .fromHere fun start => ?_
    have hbumps := (goesOn_bump s ([close] ++ behind)).trans (goesOn_bump close behind)
    have hinside : GoesOn (inside start) ([s] ++ [close]) behind := by
      refine (hbumps.wrap start .operatorAsFunctionExpr).ite_pos fun c hc => ?_
      rw [seesBoth_of_phrase (phrase_of_signs hc (isSpaced_cons hspaced)), hkind]
      simp [hkind']
    have hrest : GoesOn (fun c =>
        if c.sees .rParen then wrap start .unitExpr bump c else inside start c)
        ([s] ++ [close]) behind := by
      refine hinside.ite_neg fun c hc => ?_
      rw [sees_of_signs hc, hkind]
      rfl
    exact .bumped hrest

theorem takesAll_field :
    TakesAll (Form.rule .field) Kind.exprClosers floor bound (field expr) :=
  .nonterminal (hexpr.labelled (beginsWith_rule .expression) .field .expectedFieldName)

theorem takes_recordExpr (h : Spelt (Form.rule .recordExpr) words)
    (hlength : words.length ≤ bound + 1) (hline : IsLine floor (words ++ behind)) :
    Takes (recordExpr expr) words behind := by
  refine .node (takes_record (beginsWith_rule .field) (takesAll_field hexpr) (by decide)
    (by decide) (by decide) h.rule (fun w hw => ?_) hlength hline)
  obtain ⟨front, more, rfl, hfront, -⟩ := hw.rule.mul
  obtain ⟨name, label, rfl, hname, hlabel⟩ := hfront.mul
  obtain ⟨name, rfl, -⟩ := hname.word
  obtain ⟨label, rfl, hkind, -⟩ := hlabel.word
  exact ⟨name, label, more, rfl, by rw [hkind]; decide⟩

-- ---------------------------------------------------------------------------
-- Applications
-- ---------------------------------------------------------------------------

theorem takes_plainAtom (h : IsPlainAtom words) (hlength : words.length ≤ bound + 1)
    (hline : IsLine floor (words ++ behind)) : Takes (atom expr) words behind := by
  intro c hc
  have hc' : c.skipTrivia.phrase = words ++ behind := (phrase_skipTrivia c).trans hc
  rw [← errors_skipTrivia c]
  unfold atom
  generalize c.skipTrivia = c at hc'
  cases h with
  | word hmem hword =>
    obtain ⟨s, rfl, rfl, -⟩ := hword.word
    simp only [Kind.atomWords, List.mem_cons, List.not_mem_nil, or_false] at hmem
    obtain hkind | hkind | hkind | hkind := hmem <;> simp only [kind?_of_phrase hc', hkind]
    · exact (takes_tokenNode .valueQid s behind).node c hc'
    · exact takes_tokenNode .literalExpr s behind c hc'
    · exact takes_tokenNode .literalExpr s behind c hc'
    · exact takes_tokenNode .literalExpr s behind c hc'
  | accessor haccessor =>
    obtain ⟨dot, name, rfl, hkind, hkind'⟩ := haccessor.accessor
    simp only [kind?_of_phrase hc', hkind]
    exact Takes.node (.bumped (goesOn_expect hkind' behind)) c hc'
  | parenthesized hparens =>
    obtain ⟨s, more, rfl, hkind, -⟩ := hparens.begins [.lParen] rfl
    simp only [kind?_of_phrase hc', List.mem_singleton.mp hkind]
    exact takes_parenthesizedExpr hexpr hparens hlength (hline.sublist (List.tail_sublist _)) c hc'
  | list hlist =>
    obtain ⟨s, more, rfl, hkind, -⟩ := hlist.begins [.lBracket] rfl
    simp only [kind?_of_phrase hc', List.mem_singleton.mp hkind]
    exact Takes.node (takes_list (beginsWith_rule .expression) hexpr (by decide) (by decide)
      (by decide) hlist.rule hlength (hline.sublist (List.tail_sublist _))) c hc'
  | record hrecord =>
    obtain ⟨s, more, rfl, hkind, -⟩ := hrecord.begins [.lBrace] rfl
    simp only [kind?_of_phrase hc', List.mem_singleton.mp hkind]
    exact takes_recordExpr hexpr hrecord hlength hline c hc'

omit hexpr in
theorem takes_atom_of_name (hname : Begins [.upperIdent] words)
    (h : Takes qualifiedValue words behind) : Takes (atom expr) words behind := by
  intro c hc
  have hc' : c.skipTrivia.phrase = words ++ behind := (phrase_skipTrivia c).trans hc
  rw [← errors_skipTrivia c]
  unfold atom
  generalize c.skipTrivia = c at hc'
  obtain ⟨s, more, rfl, hkind, -⟩ := hname
  simp only [kind?_of_phrase hc', List.mem_singleton.mp hkind]
  exact h c hc'

theorem takes_access (h : Spelt (Form.rule .access) words) (hlength : words.length ≤ bound + 1)
    (hline : IsLine floor (words ++ behind)) (hspaced : IsSpaced behind) :
    Takes (access expr) words behind := by
  obtain ⟨w, fields, rfl, hfields, hatom⟩ := h.access
  -- What the atom takes and what the loop behind it takes.
  suffices hsplit : ∃ (w' : List Seen) (fields' : List (List Seen)),
      w ++ fields.flatten = w' ++ fields'.flatten ∧
      (∀ field ∈ fields', Spelt (Form.attached .dot * Form.attached .lowerIdent) field) ∧
      Takes (atom expr) w' (fields'.flatten ++ behind) by
    obtain ⟨w', fields', heq, hfields', htake⟩ := hsplit
    rw [heq]
    refine .fromHere fun start => htake.trans ?_
    refine goesOn_segments hfields' hspaced fun dot name v => ?_
    exact ((goesOn_bump dot ([name] ++ v)).trans (goesOn_bump name v)).wrap start .fieldAccessExpr
  rw [List.append_assoc] at hline
  rw [List.length_append] at hlength
  obtain hplain | hname := hatom
  · exact ⟨w, fields, rfl, hfields, takes_plainAtom hexpr hplain (by omega) hline⟩
  · have hbegin := hname.begins [.upperIdent] rfl
    cases fields with
    | nil =>
      exact ⟨w, [], rfl, nofun, takes_atom_of_name hbegin (takes_constructorName hname hspaced)⟩
    | cons field fields =>
      obtain ⟨hfield, hfields'⟩ := List.forall_mem_cons.mp hfields
      refine ⟨w ++ field, fields, by simp, hfields', takes_atom_of_name ?_ ?_⟩
      · obtain ⟨s, more, rfl, hs⟩ := hbegin
        exact ⟨s, more ++ field, rfl, hs⟩
      · exact takes_valueName hname hfield _

theorem takes_application (h : Spelt (Form.rule .application) words)
    (hlength : words.length ≤ bound + 1) (hline : IsLine floor (words ++ behind))
    (hclose : Closes Kind.operandClosers behind) :
    Takes (application floor expr) words behind := by
  obtain ⟨w, w', rfl, hfirst, hmore⟩ := h.rule.mul
  obtain ⟨parts, rfl, hparts⟩ := hmore.star
  have hbegins (part : List Seen) (hpart : part ∈ parts) : Begins Kind.atomFirsts part :=
    (hparts part hpart).begins _ (beginsWith_rule _)
  rw [List.append_assoc] at hline
  rw [List.length_append] at hlength
  have hline' := hline.sublist (List.sublist_append_right w _)
  have hargument {c : Cursor} {part v : List Seen} (hpart : part ∈ parts)
      (hc : c.phrase = part ++ v) (hline : IsLine floor (part ++ v)) :
      atArgument floor c = true := by
    rw [atArgument, (hparts part hpart).looksLikeAtom c v hc,
      (hbegins part hpart).not_atLayoutEnd hc hline]
    rfl
  have hstop (c : Cursor) (hc : c.phrase = behind) : atArgument floor c = false := by
    rw [atArgument, not_atAtom_of_closes hc hclose, Bool.false_and]
  have harguments : GoesOn (repeatWhile (atArgument floor) (access expr)) parts.flatten behind := by
    refine goesOn_arguments hbegins hclose.isSpaced hline'
      (fun c part v hpart hc hline => hargument hpart hc hline) hstop
      fun part v hpart hline hspaced => ?_
    have hle := length_part_le hpart
    exact takes_access hexpr (hparts part hpart) (by omega) hline hspaced
  have haccess := takes_access hexpr hfirst (by omega) hline
    (isSpaced_flatten hbegins hclose.isSpaced)
  refine .fromHere fun start => haccess.trans (harguments.wrapMore (fun part rest heq c hc => ?_)
    (fun c hc => hstop c (phrase_of_signs hc hclose.isSpaced)) start .functionCallExpr)
  subst heq
  have hpart : part ∈ part :: rest := List.mem_cons_self
  exact hargument hpart (phrase_of_signs hc (hbegins part hpart).isSpaced)
    (hline'.part List.suffix_rfl)

end

end ElmLint.Syntax
