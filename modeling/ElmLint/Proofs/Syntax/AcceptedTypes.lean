import ElmLint.Proofs.Syntax.Acceptance

/-!
# Types are accepted
-/

namespace ElmLint.Syntax

open Cursor Grammar

variable {words behind : List Seen} {floor bound : Nat} {type : Rule}

namespace Kind

/-- What may stand behind a type. -/
def typeClosers : List Kind := [.rParen, .rBrace, .comma, .inKw]

end Kind

/-- A type name with arguments, or an argument that is no name. -/
theorem Spelt.typeApplication (h : Spelt (Form.rule .typeApplication) words) :
    (∃ (name : List Seen) (parts : List (List Seen)), words = name ++ parts.flatten ∧
      Spelt (Form.rule .upperCaseName) name ∧
      ∀ part ∈ parts, Spelt (Form.rule .typeArgument) part) ∨
    (Spelt (Form.rule .typeArgument) words ∧ Begins [.lowerIdent, .lParen, .lBrace] words) := by
  obtain happlied | hargument := h.rule.add
  · obtain ⟨name, w, rfl, hname, harguments⟩ := happlied.mul
    obtain ⟨parts, rfl, hparts⟩ := harguments.star
    exact .inl ⟨name, parts, rfl, hname, hparts⟩
  · obtain ((hlower | hname) | hparens) | hrecord :=
      hargument.rule.add.imp_left (·.add.imp_left (·.add))
    · exact .inr ⟨hargument, hlower.begins _ rfl⟩
    · exact .inl ⟨words, [], by simp, hname, nofun⟩
    · exact .inr ⟨hargument, hparens.begins _ rfl⟩
    · exact .inr ⟨hargument, hrecord.begins _ rfl⟩

section

variable (htype : TakesAll (Form.rule .type) Kind.typeClosers floor bound type)
include htype

theorem takes_parenthesizedType (h : Spelt (Form.rule .parenthesizedType) words)
    (hlength : words.length ≤ bound + 1) (hline : IsLine floor (words ++ behind)) :
    Takes (parenthesizedType type) words behind :=
  takes_tupleOrGroup (beginsWith_rule .type) htype (by decide) (by decide) (by decide) h.rule
    hlength
    (hline.sublist (List.tail_sublist _)) .tupleType .typeExpression

theorem takesAll_fieldType :
    TakesAll (Form.rule .fieldType) Kind.typeClosers floor bound (fieldType type) :=
  .nonterminal (htype.labelled (beginsWith_rule .type) .fieldType .expectedFieldName)

theorem takes_recordType (h : Spelt (Form.rule .recordType) words)
    (hlength : words.length ≤ bound + 1) (hline : IsLine floor (words ++ behind)) :
    Takes (recordType type) words behind := by
  refine .node (takes_record (beginsWith_rule .fieldType) (takesAll_fieldType htype) (by decide)
    (by decide) (by decide) h.rule (fun w hw => ?_) hlength hline)
  obtain ⟨front, more, rfl, hfront, -⟩ := hw.rule.mul
  obtain ⟨name, label, rfl, hname, hlabel⟩ := hfront.mul
  obtain ⟨name, rfl, -⟩ := hname.word
  obtain ⟨label, rfl, hkind, -⟩ := hlabel.word
  exact ⟨name, label, more, rfl, by rw [hkind]; decide⟩

theorem takes_typeArgument (h : Spelt (Form.rule .typeArgument) words)
    (hlength : words.length ≤ bound + 1) (hline : IsLine floor (words ++ behind))
    (hspaced : IsSpaced behind) : Takes (typeArgument type) words behind := by
  intro c hc
  have hc' : c.skipTrivia.phrase = words ++ behind := (phrase_skipTrivia c).trans hc
  rw [← errors_skipTrivia c]
  unfold typeArgument
  generalize c.skipTrivia = c at hc'
  obtain ((hlower | hname) | hparens) | hrecord := (h.rule.add.imp_left (·.add.imp_left (·.add)))
  · obtain ⟨s, rfl, hkind, -⟩ := hlower.word
    simp only [kind?_of_phrase hc', hkind]
    exact takes_tokenNode _ s behind c hc'
  · have hbegin := hname.begins [.upperIdent] rfl
    obtain ⟨s, more, rfl, hkind, -⟩ := hbegin
    simp only [kind?_of_phrase hc', List.mem_singleton.mp hkind]
    exact (takes_upperCaseName hname hspaced).node c hc'
  · obtain ⟨s, more, rfl, hkind, -⟩ := hparens.begins [.lParen] rfl
    simp only [kind?_of_phrase hc', List.mem_singleton.mp hkind]
    exact takes_parenthesizedType htype hparens hlength hline c hc'
  · obtain ⟨s, more, rfl, hkind, -⟩ := hrecord.begins [.lBrace] rfl
    simp only [kind?_of_phrase hc', List.mem_singleton.mp hkind]
    exact takes_recordType htype hrecord hlength hline c hc'

theorem takes_typeApplication (h : Spelt (Form.rule .typeApplication) words)
    (hlength : words.length ≤ bound + 1) (hline : IsLine floor (words ++ behind))
    (hclose : Closes (.arrow :: Kind.typeClosers) behind) :
    Takes (typeApplication floor type) words behind := by
  obtain ⟨name, parts, rfl, hname, hparts⟩ | ⟨hargument, hbegin⟩ := h.typeApplication
  · have hbegins (part : List Seen) (hpart : part ∈ parts) : Begins Kind.typeFirsts part :=
      (hparts part hpart).begins _ (beginsWith_rule _)
    rw [List.append_assoc] at hline
    rw [List.length_append] at hlength
    refine takes_applied hbegins hclose.isSpaced (hline.sublist (List.sublist_append_right _ _))
      (fun c part v hpart hc hline => ?_) (fun c hc => ?_) (fun part v hpart hline hspaced => ?_)
      hname .typeRef
    · have hargument : atTypeArgument c = true := (hbegins part hpart).seesAny hc
      rw [hargument, (hbegins part hpart).not_atLayoutEnd hc hline]
      rfl
    · have hargument : atTypeArgument c = false := seesAny_of_closes hc hclose (by decide)
      rw [hargument, Bool.false_and]
    · have hle := length_part_le hpart
      exact takes_typeArgument htype (hparts part hpart) (by omega) hline hspaced
  · refine (takes_typeArgument htype hargument hlength hline hclose.isSpaced).ite_neg fun c hc => ?_
    exact sees_of_closes hc hbegin.closes (by decide)

variable {parts : List (List Seen)}
  (hparts : ∀ part ∈ parts, Spelt (Form.word .arrow * Form.rule .typeApplication) part)
  (hlength : parts.flatten.length ≤ bound) (hline : IsLine floor (parts.flatten ++ behind))
  (hclose : Closes Kind.typeClosers behind)
include hparts hlength hline hclose

theorem goesOn_arrows {rounds : Nat} (hrounds : parts.length < rounds) :
    GoesOn (arrows floor type rounds) parts.flatten behind := by
  have hbegins {part : List Seen} (hpart : part ∈ parts) : Begins [.arrow] part :=
    (hparts part hpart).begins _ rfl
  refine goesOn_rounds (fun part rest hrest rounds c hc => ?_) (fun rounds c hc => ?_) hrounds
  · have hmem : part ∈ parts := hrest.mem List.mem_cons_self
    have hphrase := phrase_of_signs hc (hbegins hmem).isSpaced
    obtain ⟨w, w', rfl, harrow, happlication⟩ := (hparts part hmem).mul
    obtain ⟨s, rfl, hkind, -⟩ := harrow.word
    have hbegin := happlication.begins _ (beginsWith_rule _)
    have hbehind : Closes (.arrow :: Kind.typeClosers) (rest.flatten ++ behind) := by
      refine closes_flatten (fun part hpart => ?_) (hclose.mono (List.subset_cons_self _ _))
      exact (hbegins (hrest.mem (List.mem_cons_of_mem _ hpart))).mono (by simp)
    have htake : GoesOn (typeApplication floor type) w' (rest.flatten ++ behind) := by
      refine (takes_typeApplication htype happlication ?_ ?_ hbehind).goesOn hbegin.isSpaced
      · have hle := length_part_le hmem
        rw [List.length_append] at hle
        omega
      · exact (hline.part hrest).sublist (List.sublist_cons_self s _)
    refine ⟨typeApplication floor type c.bump, ?_, Takes.bumped htake c hphrase⟩
    have hatArrow : atArrow floor c = true := by
      rw [atArrow, sees_of_phrase hphrase, hkind, (hbegins hmem).not_atLayoutEnd hphrase
        (hline.part hrest)]
      rfl
    have hargument : atTypeArgument c.bump = true :=
      hbegin.seesAny (phrase_bump hphrase hbegin.isSpaced)
    rw [arrows, if_pos hatArrow]
    simp only [hargument, if_true]
  · have hatArrow : atArrow floor c = false := by
      rw [atArrow, sees_of_closes (phrase_of_signs hc hclose.isSpaced) hclose (by decide)]
      rfl
    rw [arrows, if_neg (by simp [hatArrow])]
    exact ⟨hc, rfl⟩

end

theorem takes_typeOver (htype : TakesAll (Form.rule .type) Kind.typeClosers floor bound type) :
    TakesAll (Form.rule .type) Kind.typeClosers floor (bound + 1) (typeOver floor type) := by
  intro words behind h hlength hline hclose
  have hbegin := h.begins _ (beginsWith_rule _)
  obtain ⟨w, w', rfl, hfirst, hmore⟩ := h.rule.mul
  obtain ⟨parts, rfl, hparts⟩ := hmore.star
  have hbegins (part : List Seen) (hpart : part ∈ parts) : Begins [.arrow] part :=
    (hparts part hpart).begins _ rfl
  refine Takes.ite_pos (.fromHere fun start => ?_) fun c hc => hbegin.seesAny hc
  rw [List.append_assoc] at hline
  rw [List.length_append] at hlength
  have hpos := List.length_pos_iff.mpr (hfirst.begins _ (beginsWith_rule _)).ne_nil
  have happlication : Takes (typeApplication floor type) w (parts.flatten ++ behind) :=
    takes_typeApplication htype hfirst (by omega) hline
      (closes_flatten (fun part hpart => (hbegins part hpart).mono (by simp))
        (hclose.mono (List.subset_cons_self _ _)))
  have hline' := hline.sublist (List.sublist_append_right w _)
  have hne (part : List Seen) (hpart : part ∈ parts) : part ≠ [] := (hbegins part hpart).ne_nil
  have harrows : GoesOn (fun c => arrows floor type (c.rest.length + 1) c) parts.flatten behind :=
    fun c hc => goesOn_arrows htype hparts (by omega) hline' hclose
      (Nat.lt_succ_of_le (length_le_length_rest hne hc)) c hc
  refine happlication.trans (harrows.wrapMore (fun part rest heq c hc => ?_) (fun c hc => ?_) start
    .typeExpression)
  · subst heq
    have hbegin := hbegins part List.mem_cons_self
    have hphrase := phrase_of_signs hc hbegin.isSpaced
    rw [atArrow, hbegin.sees hphrase, hbegin.not_atLayoutEnd hphrase (hline'.part List.suffix_rfl)]
    rfl
  · rw [atArrow, sees_of_closes (phrase_of_signs hc hclose.isSpaced) hclose (by decide)]
    rfl

theorem takesAll_typeWithin (depth : Nat) :
    TakesAll (Form.rule .type) Kind.typeClosers floor depth (typeWithin floor depth) := by
  induction depth with
  | zero =>
    intro words behind h hlength
    have hpos := List.length_pos_iff.mpr (h.begins _ (beginsWith_rule _)).ne_nil
    omega
  | succ depth ih => exact takes_typeOver ih

theorem takes_type (h : Spelt (Form.rule .type) words) (hline : IsLine floor (words ++ behind))
    (hclose : Closes Kind.typeClosers behind) : Takes (Grammar.type floor) words behind :=
  TakesAll.whole takesAll_typeWithin h hline hclose

end ElmLint.Syntax
