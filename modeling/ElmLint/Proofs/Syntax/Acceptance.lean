import ElmLint.Proofs.Syntax.Sights

/-!
# Rules that take words off

`Takes rule words behind`: a cursor that has `words` and then `behind` in front of it has `behind`
in front of it after the rule, and no error is recorded. `GoesOn` says this of cursors right behind
a token, for rules that may take no word at all. The lemmas follow how rules are put together.
-/

namespace ElmLint.Syntax

open Cursor Grammar

variable {c : Cursor} {s s' : Seen} {words more behind v : List Seen} {parts : List (List Seen)}
  {kind kind' : Kind} {kinds : List Kind} {rule f g : Rule} {floor bound : Nat}
  {form : RegularExpression Symbol} {condition : Cursor → Bool}

-- ---------------------------------------------------------------------------
-- What stands behind
-- ---------------------------------------------------------------------------

/-- There are no more words, or they begin behind a gap with a token of one of the kinds. -/
def Closes (kinds : List Kind) (v : List Seen) : Prop :=
  ∀ s ∈ v.head?, s.kind ∈ kinds ∧ s.isAttached = false

theorem Closes.isSpaced (h : Closes kinds v) : IsSpaced v := fun s hs => (h s hs).2

theorem Closes.mono {kinds' : List Kind} (h : Closes kinds v) (hle : kinds ⊆ kinds') :
    Closes kinds' v := fun s hs => ⟨hle (h s hs).1, (h s hs).2⟩

theorem Closes.nil (kinds : List Kind) : Closes kinds [] := nofun

theorem closes_cons (hkind : s.kind ∈ kinds) (hspaced : s.isAttached = false) :
    Closes kinds (s :: v) := by
  rintro _ ⟨⟩
  exact ⟨hkind, hspaced⟩

theorem isSpaced_cons (hspaced : s.isAttached = false) : IsSpaced (s :: v) := by
  rintro _ ⟨⟩
  exact hspaced

theorem Begins.closes (h : Begins kinds words) : Closes kinds (words ++ behind) := by
  obtain ⟨s, more, rfl, hkind, hspaced⟩ := h
  exact closes_cons hkind hspaced

theorem Begins.isSpaced (h : Begins kinds words) : IsSpaced (words ++ behind) := h.closes.isSpaced

theorem Begins.ne_nil (h : Begins kinds words) : words ≠ [] := by
  obtain ⟨s, more, rfl, -⟩ := h
  exact List.cons_ne_nil _ _

/-- What stands behind one of several parts. -/
theorem closes_flatten (hparts : ∀ part ∈ parts, Begins kinds part) (hbehind : Closes kinds v) :
    Closes kinds (parts.flatten ++ v) := by
  cases parts with
  | nil => exact hbehind
  | cons part parts =>
    rw [List.flatten_cons, List.append_assoc]
    exact (hparts part List.mem_cons_self).closes

-- ---------------------------------------------------------------------------
-- Looking at words
-- ---------------------------------------------------------------------------

namespace Cursor

section Phrase

variable (h : c.phrase = s :: more)
include h

theorem kind?_of_phrase : c.kind? = some s.kind := by rw [kind?_eq, h]; rfl

theorem secondKind?_of_phrase : c.secondKind? = more.head?.map (·.kind) := by
  rw [secondKind?_eq, h]
  rfl

theorem column?_of_phrase : c.column? = some s.column := by rw [column?_eq, h]; rfl

theorem sees_of_phrase (kind : Kind) : c.sees kind = (s.kind == kind) := by
  rw [sees, kind?_of_phrase h]
  rfl

theorem seesAny_of_phrase (kinds : List Kind) : c.seesAny kinds = kinds.contains s.kind := by
  rw [seesAny, kind?_of_phrase h]
  rfl

theorem seesBoth_of_phrase (first second : Kind) :
    c.seesBoth first second = (s.kind == first && more.head?.map (·.kind) == some second) := by
  rw [seesBoth, sees_of_phrase h, secondKind?_of_phrase h]

theorem seesOperator_of_phrase (symbol : String) :
    c.seesOperator symbol = (s.kind == .operatorIdent && s.text == symbol) := by
  rw [seesOperator_eq, h]
  rfl

theorem atLayoutEnd_of_phrase (floor : Nat) : c.atLayoutEnd floor = decide (s.column ≤ floor) := by
  rw [atLayoutEnd, column?_of_phrase h]
  rfl

end Phrase

section Closes

variable (h : c.phrase = v) (hv : Closes kinds v)
include h hv

theorem seesAny_of_closes {others : List Kind} (hne : ∀ kind ∈ kinds, kind ∉ others) :
    c.seesAny others = false := by
  rw [seesAny, kind?_eq, h]
  cases v with
  | nil => rfl
  | cons s v => simpa using hne _ (hv s rfl).1

theorem sees_of_closes (hne : kind ∉ kinds) : c.sees kind = false := by
  rw [sees, kind?_eq, h]
  cases v with
  | nil => rfl
  | cons s v =>
    have hkind : s.kind ≠ kind := fun heq => hne (heq ▸ (hv s rfl).1)
    simpa using hkind

theorem seesBoth_of_closes (hne : kind ∉ kinds) : c.seesBoth kind kind' = false := by
  rw [seesBoth, sees_of_closes h hv hne, Bool.false_and]

theorem seesOperator_of_closes (hne : .operatorIdent ∉ kinds) (symbol : String) :
    c.seesOperator symbol = false := by
  rw [seesOperator_eq, h]
  cases v with
  | nil => rfl
  | cons s v =>
    have hkind : s.kind ≠ .operatorIdent := fun heq => hne (heq ▸ (hv s rfl).1)
    simp [hkind]

end Closes

/-- Attached words touch. -/
theorem touches_of_signs (h : c.signs = s :: s' :: more) (hs : s.isAttached = true)
    (hs' : s'.isAttached = true) (first second : Kind) :
    c.touches first second = (s.kind == first && s'.kind == second) := by
  obtain ⟨t, tokens, hrest, -, rfl, htokens⟩ := exists_token_of_signsOf h hs
  obtain ⟨t', tokens', rfl, -, rfl, -⟩ := exists_token_of_signsOf htokens hs'
  rw [touches, hrest]
  rfl

theorem not_touches_of_isSpaced (h : IsSpaced c.signs) {first : Kind} (second : Kind)
    (hfirst : first.isTrivia = false) : c.touches first second = false := by
  unfold touches
  split
  · rename_i t t' tokens hrest
    rw [signs, hrest] at h
    have ht : t.kind.isTrivia = true := by
      by_contra hword
      rw [signsOf, if_neg hword] at h
      cases h _ rfl
    have hne : t.kind ≠ first := by
      rintro rfl
      rw [ht] at hfirst
      cases hfirst
    simp [hne]
  · rfl

end Cursor

theorem phrase_of_signs (hc : c.signs = v) (hspaced : IsSpaced v) : c.phrase = v := by
  rw [phrase, hc, hspaced.detach_eq]

theorem sees_of_signs (hc : c.signs = s :: more) (kind : Kind) :
    c.sees kind = (s.kind == kind) := by
  have hphrase : c.phrase = { s with isAttached := false } :: more := congrArg detach hc
  exact sees_of_phrase hphrase kind

theorem phrase_bump (hc : c.phrase = s :: v) (hspaced : IsSpaced v) : c.bump.phrase = v := by
  refine phrase_of_signs ?_ hspaced
  rw [signs_bump, hc]
  rfl

-- ---------------------------------------------------------------------------
-- Rules
-- ---------------------------------------------------------------------------

def Takes (rule : Rule) (words behind : List Seen) : Prop :=
  ∀ c : Cursor, c.phrase = words ++ behind →
    (rule c).signs = behind ∧ (rule c).errors = c.errors

def GoesOn (rule : Rule) (words behind : List Seen) : Prop :=
  ∀ c : Cursor, c.signs = words ++ behind →
    (rule c).signs = behind ∧ (rule c).errors = c.errors

theorem Takes.goesOn (h : Takes rule words behind) (hspaced : IsSpaced (words ++ behind)) :
    GoesOn rule words behind :=
  fun c hc => h c (phrase_of_signs hc hspaced)

theorem GoesOn.stay (behind : List Seen) : GoesOn (fun c => c) [] behind := fun _ hc => ⟨hc, rfl⟩

theorem Takes.trans (h : Takes f words (more ++ behind)) (h' : GoesOn g more behind) :
    Takes (fun c => g (f c)) (words ++ more) behind := by
  intro c hc
  obtain ⟨hsigns, herrors⟩ := h c (by rw [hc, List.append_assoc])
  obtain ⟨hsigns', herrors'⟩ := h' (f c) hsigns
  exact ⟨hsigns', herrors'.trans herrors⟩

theorem GoesOn.trans (h : GoesOn f words (more ++ behind)) (h' : GoesOn g more behind) :
    GoesOn (fun c => g (f c)) (words ++ more) behind := by
  intro c hc
  obtain ⟨hsigns, herrors⟩ := h c (by rw [hc, List.append_assoc])
  obtain ⟨hsigns', herrors'⟩ := h' (f c) hsigns
  exact ⟨hsigns', herrors'.trans herrors⟩

theorem takes_bump (s : Seen) (behind : List Seen) : Takes bump [s] behind := by
  intro c hc
  rw [signs_bump, hc]
  exact ⟨rfl, c.errors_bump⟩

theorem goesOn_bump (s : Seen) (behind : List Seen) : GoesOn bump [s] behind := by
  intro c hc
  rw [signs_bump, phrase, hc]
  exact ⟨rfl, c.errors_bump⟩

/-- The first word is consumed, and a rule goes on with the others. -/
theorem Takes.bumped (h : GoesOn rule words behind) :
    Takes (fun c => rule c.bump) (s :: words) behind :=
  (takes_bump s (words ++ behind)).trans h

theorem Takes.node (h : Takes rule words behind) : Takes (Cursor.node kind rule) words behind := by
  intro c hc
  obtain ⟨hsigns, herrors⟩ := h (c.skipTrivia.startNode kind) ((phrase_skipTrivia c).trans hc)
  exact ⟨hsigns, herrors.trans (errors_skipTrivia c)⟩

theorem takes_tokenNode (kind : Kind) (s : Seen) (behind : List Seen) :
    Takes (tokenNode kind) [s] behind := .node (takes_bump s behind)

theorem Takes.fromHere {rule : Nat → Rule} (h : ∀ start, Takes (rule start) words behind) :
    Takes (Cursor.fromHere rule) words behind := by
  intro c hc
  obtain ⟨hsigns, herrors⟩ := h c.skipTrivia.builder.checkpoint c.skipTrivia
    ((phrase_skipTrivia c).trans hc)
  exact ⟨hsigns, herrors.trans (errors_skipTrivia c)⟩

theorem GoesOn.wrap (h : GoesOn rule words behind) (start : Nat) (kind : Kind) :
    GoesOn (Cursor.wrap start kind rule) words behind :=
  fun c hc => h (c.startNodeAt start kind) hc

theorem goesOn_expect (hkind : s.kind = kind) (behind : List Seen) :
    GoesOn (expect kind) [s] behind := by
  intro c hc
  rw [expect, sees_of_signs hc, if_pos (beq_iff_eq.mpr hkind)]
  exact goesOn_bump s behind c hc

theorem goesOn_expectThen (hkind : s.kind = kind) (h : GoesOn rule words behind) :
    GoesOn (expectThen kind rule) (s :: words) behind := by
  intro c hc
  rw [expectThen, sees_of_signs hc, if_pos (beq_iff_eq.mpr hkind)]
  exact ((goesOn_bump s (words ++ behind)).trans h) c hc

theorem Takes.ite_pos (h : Takes f words behind)
    (hif : ∀ c : Cursor, c.phrase = words ++ behind → condition c = true) :
    Takes (fun c => if condition c then f c else g c) words behind := by
  intro c hc
  simp only [hif c hc, if_true]
  exact h c hc

theorem Takes.ite_neg (h : Takes g words behind)
    (hif : ∀ c : Cursor, c.phrase = words ++ behind → condition c = false) :
    Takes (fun c => if condition c then f c else g c) words behind := by
  intro c hc
  simp only [hif c hc, Bool.false_eq_true, if_false]
  exact h c hc

theorem GoesOn.ite_pos (h : GoesOn f words behind)
    (hif : ∀ c : Cursor, c.signs = words ++ behind → condition c = true) :
    GoesOn (fun c => if condition c then f c else g c) words behind := by
  intro c hc
  simp only [hif c hc, if_true]
  exact h c hc

theorem GoesOn.ite_neg (h : GoesOn g words behind)
    (hif : ∀ c : Cursor, c.signs = words ++ behind → condition c = false) :
    GoesOn (fun c => if condition c then f c else g c) words behind := by
  intro c hc
  simp only [hif c hc, Bool.false_eq_true, if_false]
  exact h c hc

-- ---------------------------------------------------------------------------
-- Repetition
-- ---------------------------------------------------------------------------

/-- Every round takes one part off, and a rule with rounds left ends behind the last. -/
theorem goesOn_rounds {rule : Nat → Rule} {rounds : Nat}
    (hround : ∀ part rest, part :: rest <:+ parts → ∀ rounds (c : Cursor),
      c.signs = part ++ (rest.flatten ++ behind) →
        ∃ c' : Cursor, rule (rounds + 1) c = rule rounds c' ∧ c'.signs = rest.flatten ++ behind ∧
          c'.errors = c.errors)
    (hstop : ∀ rounds, GoesOn (rule (rounds + 1)) [] behind) (hrounds : parts.length < rounds) :
    GoesOn (rule rounds) parts.flatten behind := by
  induction parts generalizing rounds with
  | nil =>
    obtain ⟨rounds, rfl⟩ := Nat.exists_eq_succ_of_ne_zero (Nat.ne_zero_of_lt hrounds)
    exact hstop rounds
  | cons part rest ih =>
    obtain ⟨rounds, rfl⟩ := Nat.exists_eq_succ_of_ne_zero (Nat.ne_zero_of_lt hrounds)
    intro c hc
    rw [List.flatten_cons, List.append_assoc] at hc
    obtain ⟨c', heq, hsigns, herrors⟩ := hround part rest List.suffix_rfl _ c hc
    obtain ⟨hsigns', herrors'⟩ := ih
      (fun part' rest' hrest => hround part' rest' (hrest.trans (List.suffix_cons part rest)))
      (Nat.lt_of_succ_lt_succ hrounds) c' hsigns
    exact ⟨heq ▸ hsigns', (heq ▸ herrors').trans herrors⟩

theorem length_le_length_flatten (h : ∀ part ∈ parts, part ≠ []) :
    parts.length ≤ parts.flatten.length := by
  induction parts with
  | nil => exact Nat.le_refl 0
  | cons part parts ih =>
    obtain ⟨hpart, hparts⟩ := List.forall_mem_cons.mp h
    have := List.length_pos_iff.mpr hpart
    have := ih hparts
    rw [List.length_cons, List.flatten_cons, List.length_append]
    omega

/-- There are at most as many parts as tokens. -/
theorem length_le_length_rest (h : ∀ part ∈ parts, part ≠ [])
    (hc : c.signs = parts.flatten ++ behind) : parts.length ≤ c.rest.length := by
  have hle : (parts.flatten ++ behind).length ≤ c.rest.length := hc ▸ length_signsOf_le c.rest
  have := length_le_length_flatten h
  rw [List.length_append] at hle
  omega

/-- What is read if there are any parts. -/
theorem GoesOn.wrapMore (h : GoesOn rule parts.flatten behind)
    (hmore : ∀ part rest, parts = part :: rest →
      ∀ c : Cursor, c.signs = part ++ (rest.flatten ++ behind) → condition c = true)
    (hstop : ∀ c : Cursor, c.signs = behind → condition c = false) (start : Nat) (kind : Kind) :
    GoesOn (fun c => if condition c then Cursor.wrap start kind rule c else c) parts.flatten
      behind := by
  cases parts with
  | nil => exact (GoesOn.stay behind).ite_neg hstop
  | cons part rest =>
    refine (h.wrap start kind).ite_pos fun c hc => hmore part rest rfl c ?_
    rwa [List.flatten_cons, List.append_assoc] at hc

/-- Every round takes one part off. -/
theorem goesOn_repeatWhile (hne : ∀ part ∈ parts, part ≠ [])
    (hround : ∀ part rest, part :: rest <:+ parts →
      ∀ c : Cursor, c.signs = part ++ (rest.flatten ++ behind) →
        condition c = true ∧ (rule c).signs = rest.flatten ++ behind ∧ (rule c).errors = c.errors)
    (hstop : ∀ c : Cursor, c.signs = behind → condition c = false) :
    GoesOn (repeatWhile condition rule) parts.flatten behind := by
  intro c hc
  refine goesOn_rounds (fun part rest hrest rounds c hc => ?_) (fun rounds c hc => ?_)
    (Nat.lt_succ_of_le (length_le_length_rest hne hc)) c hc
  · obtain ⟨hmore, hrule⟩ := hround part rest hrest c hc
    exact ⟨rule c, by rw [repeatWhile.go, hmore, if_pos rfl], hrule⟩
  · rw [repeatWhile.go, hstop c hc]
    exact ⟨hc, rfl⟩

-- ---------------------------------------------------------------------------
-- Names
-- ---------------------------------------------------------------------------

/-- A dot and a name, both attached. -/
theorem Spelt.segment (h : Spelt (Form.attached .dot * Form.attached kind) words) :
    ∃ dot name, words = [dot, name] ∧ dot.kind = .dot ∧ name.kind = kind ∧
      dot.isAttached = true ∧ name.isAttached = true := by
  obtain ⟨w, w', rfl, hdot, hname⟩ := h.mul
  obtain ⟨dot, rfl, hkind, hattached⟩ := hdot.attached
  obtain ⟨name, rfl, hkind', hattached'⟩ := hname.attached
  exact ⟨dot, name, rfl, hkind, hkind', hattached, hattached'⟩

/-- Attached segments are read one after another. -/
theorem goesOn_segments (hparts : ∀ part ∈ parts,
      Spelt (Form.attached .dot * Form.attached kind) part)
    (hspaced : IsSpaced behind) (hrule : ∀ dot name v, GoesOn rule [dot, name] v) :
    GoesOn (repeatWhile (·.touches .dot kind) rule) parts.flatten behind := by
  refine goesOn_repeatWhile (fun part hpart => ?_) (fun part rest hrest c hc => ?_) fun c hc => ?_
  · obtain ⟨dot, name, rfl, -⟩ := (hparts part hpart).segment
    exact List.cons_ne_nil _ _
  · obtain ⟨dot, name, rfl, hdot, hname, hattached, hattached'⟩ :=
      (hparts part (hrest.mem List.mem_cons_self)).segment
    refine ⟨?_, hrule dot name _ c hc⟩
    rw [touches_of_signs hc hattached hattached', hdot, hname]
    simp
  · exact not_touches_of_isSpaced (hc ▸ hspaced) kind rfl

theorem takes_upperCaseName (h : Spelt (Form.rule .upperCaseName) words)
    (hspaced : IsSpaced behind) : Takes upperCaseName words behind := by
  obtain ⟨w, w', rfl, hname, hsegments⟩ := h.rule.mul
  obtain ⟨name, rfl, hkind, -⟩ := hname.word
  obtain ⟨parts, rfl, hparts⟩ := hsegments.star
  refine Takes.ite_pos (.node (.bumped ?_)) fun c hc => ?_
  · exact goesOn_segments hparts hspaced fun dot name v =>
      (goesOn_bump dot ([name] ++ v)).trans (goesOn_bump name v)
  · rw [sees_of_phrase hc, hkind]
    rfl

-- ---------------------------------------------------------------------------
-- Lines
-- ---------------------------------------------------------------------------

/-- The words stand right of the floor and one behind another, as on one line. -/
def IsLine (floor : Nat) (words : List Seen) : Prop :=
  (floor :: words.map Seen.column).Pairwise (· < ·)

theorem IsLine.sublist (h : IsLine floor words) (hle : more.Sublist words) : IsLine floor more :=
  List.Pairwise.sublist ((hle.map Seen.column).cons_cons floor) h

theorem IsLine.head (h : IsLine floor (s :: words)) : floor < s.column :=
  (List.pairwise_cons.mp h).1 _ List.mem_cons_self

/-- Words behind a word stand right of it. -/
theorem IsLine.tail (h : IsLine floor (s :: words)) : IsLine s.column words :=
  (List.pairwise_cons.mp h).2

theorem not_atLayoutEnd_of_isLine (hc : c.phrase = s :: words) (h : IsLine floor (s :: words)) :
    c.atLayoutEnd floor = false := by
  rw [atLayoutEnd_of_phrase hc, decide_eq_false (Nat.not_le.mpr h.head)]

/-- The rule takes every phrase of the form off that is not longer than the bound, stands on one
line, and is followed by what closes it. -/
def TakesAll (form : RegularExpression Symbol) (closers : List Kind) (floor bound : Nat)
    (rule : Rule) : Prop :=
  ∀ words behind, Spelt form words → words.length ≤ bound → IsLine floor (words ++ behind) →
    Closes closers behind → Takes rule words behind

theorem Begins.mono {kinds' : List Kind} (h : Begins kinds words) (hle : kinds ⊆ kinds') :
    Begins kinds' words := by
  obtain ⟨s, more, rfl, hkind, hspaced⟩ := h
  exact ⟨s, more, rfl, hle hkind, hspaced⟩

theorem flatten_isSuffix (v : List Seen) {rest : List (List Seen)} (h : rest <:+ parts) :
    rest.flatten ++ v <:+ parts.flatten ++ v := by
  obtain ⟨front, rfl⟩ := h
  rw [List.flatten_append, List.append_assoc]
  exact List.suffix_append _ _

/-- What stands on one line from one of the parts on. -/
theorem IsLine.part {rest : List (List Seen)} {part : List Seen}
    (h : IsLine floor (parts.flatten ++ behind)) (hrest : part :: rest <:+ parts) :
    IsLine floor (part ++ (rest.flatten ++ behind)) := by
  have hsuffix := flatten_isSuffix behind hrest
  rw [List.flatten_cons, List.append_assoc] at hsuffix
  exact h.sublist hsuffix.sublist

theorem isSpaced_flatten (hparts : ∀ part ∈ parts, Begins kinds part) (hbehind : IsSpaced v) :
    IsSpaced (parts.flatten ++ v) := by
  cases parts with
  | nil => exact hbehind
  | cons part parts =>
    rw [List.flatten_cons, List.append_assoc]
    exact (hparts part List.mem_cons_self).isSpaced

theorem length_part_le {part : List Seen} (hpart : part ∈ parts) :
    part.length ≤ parts.flatten.length := (List.sublist_flatten_of_mem hpart).length_le

namespace Begins

variable (h : Begins kinds words) (hc : c.phrase = words ++ behind)
include h hc

theorem seesAny : c.seesAny kinds = true := by
  obtain ⟨s, more, rfl, hkind, -⟩ := h
  rw [seesAny_of_phrase hc]
  simpa using hkind

omit h hc in
theorem sees (h : Begins [kind] words) (hc : c.phrase = words ++ behind) : c.sees kind = true := by
  obtain ⟨s, more, rfl, hkind, -⟩ := h
  rw [sees_of_phrase hc]
  exact beq_iff_eq.mpr (List.mem_singleton.mp hkind)

theorem not_atLayoutEnd (hline : IsLine floor (words ++ behind)) : c.atLayoutEnd floor = false := by
  obtain ⟨s, more, rfl, -⟩ := h
  exact not_atLayoutEnd_of_isLine hc hline

end Begins

/-- A rule with a depth that grows with what is left. -/
theorem TakesAll.whole {closers : List Kind} {rule : Nat → Rule}
    (h : ∀ depth, TakesAll form closers floor depth (rule depth)) (hwords : Spelt form words)
    (hline : IsLine floor (words ++ behind)) (hclose : Closes closers behind) :
    Takes (fun c => rule (c.rest.length + 1) c) words behind := by
  intro c hc
  refine h _ words behind hwords ?_ hline hclose c hc
  have hle := c.length_phrase_le
  rw [hc, List.length_append] at hle
  omega

-- ---------------------------------------------------------------------------
-- Arguments
-- ---------------------------------------------------------------------------

section Arguments

variable (hparts : ∀ part ∈ parts, Begins kinds part) (hbehind : IsSpaced behind)
  (hline : IsLine floor (parts.flatten ++ behind))
  (hmore : ∀ c part v, part ∈ parts → c.phrase = part ++ v → IsLine floor (part ++ v) →
    condition c = true)
  (hstop : ∀ c, c.phrase = behind → condition c = false)
  (hrule : ∀ part v, part ∈ parts → IsLine floor (part ++ v) → IsSpaced v → Takes rule part v)
include hparts hbehind hline hmore hstop hrule

/-- Arguments are read one after another. -/
theorem goesOn_arguments : GoesOn (repeatWhile condition rule) parts.flatten behind := by
  refine goesOn_repeatWhile (fun part hpart => (hparts part hpart).ne_nil)
    (fun part rest hrest c hc => ?_) fun c hc => hstop c (phrase_of_signs hc hbehind)
  have hmem : part ∈ parts := hrest.mem List.mem_cons_self
  have hphrase : c.phrase = part ++ (rest.flatten ++ behind) :=
    phrase_of_signs hc (hparts part hmem).isSpaced
  have hspaced : IsSpaced (rest.flatten ++ behind) :=
    isSpaced_flatten (fun part hpart => hparts part (hrest.mem (List.mem_cons_of_mem _ hpart)))
      hbehind
  exact ⟨hmore c part _ hmem hphrase (hline.part hrest),
    hrule part _ hmem (hline.part hrest) hspaced c hphrase⟩

/-- A capital name and its arguments. -/
theorem takes_applied {name : List Seen} {alone : Rule}
    (hname : Spelt (Form.rule .upperCaseName) name) (kind : Kind) :
    Takes (fun c =>
        if c.sees .upperIdent then
          Cursor.node kind (fun c => repeatWhile condition rule (upperCaseName c)) c
        else alone c)
      (name ++ parts.flatten) behind := by
  have hspaced := isSpaced_flatten hparts hbehind
  have harguments := goesOn_arguments hparts hbehind hline hmore hstop hrule
  refine Takes.ite_pos (.node ((takes_upperCaseName hname hspaced).trans harguments)) fun c hc => ?_
  rw [List.append_assoc] at hc
  exact (hname.begins [.upperIdent] rfl).sees hc

end Arguments

-- ---------------------------------------------------------------------------
-- Lists in brackets
-- ---------------------------------------------------------------------------

section Items

variable {item : Rule} {closers : List Kind} {close : Kind}
  (hitem : TakesAll form closers floor bound item) (hbegins : beginsWith kinds form = true)
  (hcomma : .comma ∈ closers) (hclosers : close ∈ closers) (hne : close ≠ .comma)
  (hkind : s.kind = close) (hspaced : s.isAttached = false)
include hitem hbegins hcomma hclosers hne hkind hspaced

theorem goesOn_commas (hparts : ∀ part ∈ parts, Spelt (Form.word .comma * form) part)
    (hlength : parts.flatten.length ≤ bound) (hline : IsLine floor (parts.flatten ++ s :: behind)) :
    GoesOn (repeatWhile (·.sees .comma) fun c => item c.bump) parts.flatten (s :: behind) := by
  have hbegin {part : List Seen} (hpart : part ∈ parts) : Begins [.comma] part :=
    (hparts part hpart).begins _ rfl
  have hclose : Closes [close] (s :: behind) := closes_cons (by simp [hkind]) hspaced
  refine goesOn_repeatWhile (fun part hpart => (hbegin hpart).ne_nil)
    (fun part rest hrest c hc => ?_) fun c hc => ?_
  · have hmem : part ∈ parts := hrest.mem List.mem_cons_self
    obtain ⟨w, w', rfl, hfirst, hform⟩ := (hparts part hmem).mul
    obtain ⟨comma, rfl, hcommaKind, hcommaSpaced⟩ := hfirst.word
    have hphrase : c.phrase = [comma] ++ w' ++ (rest.flatten ++ s :: behind) :=
      phrase_of_signs hc (hbegin hmem).isSpaced
    refine ⟨by rw [sees_of_phrase hphrase, hcommaKind]; rfl, ?_⟩
    have hbegin' := hform.begins kinds hbegins
    refine Takes.bumped (Takes.goesOn (hitem w' _ hform ?_ ?_ ?_) hbegin'.isSpaced) c
      hphrase
    · have hle := length_part_le hmem
      rw [List.length_append] at hle
      omega
    · exact (hline.part hrest).sublist (List.sublist_cons_self comma _)
    · refine closes_flatten (fun part hpart => ?_) (hclose.mono (by simpa using hclosers))
      exact (hbegin (hrest.mem (List.mem_cons_of_mem _ hpart))).mono (by simpa using hcomma)
  · rw [sees_of_phrase (phrase_of_signs hc hclose.isSpaced), hkind]
    exact beq_eq_false_iff_ne.mpr hne

/-- Items up to the closing bracket, the first of them without a comma. -/
theorem goesOn_commaSeparated (h : Spelt (Form.separated form) words)
    (hlength : words.length ≤ bound)
    (hline : IsLine floor (words ++ s :: behind)) :
    GoesOn (commaSeparated item) words (s :: behind) := by
  obtain ⟨w, w', rfl, hfirst, hmore⟩ := h.mul
  obtain ⟨parts, rfl, hparts⟩ := hmore.star
  rw [List.append_assoc] at hline
  rw [List.length_append] at hlength
  have hclose : Closes [close] (s :: behind) := closes_cons (by simp [hkind]) hspaced
  have hbehind : Closes closers (parts.flatten ++ s :: behind) := by
    refine closes_flatten (fun part hpart => ?_) (hclose.mono (by simpa using hclosers))
    have hbegin : Begins [.comma] part := (hparts part hpart).begins _ rfl
    exact hbegin.mono (by simpa using hcomma)
  refine (hitem w _ hfirst (by omega) hline hbehind).goesOn (hfirst.begins kinds hbegins).isSpaced
    |>.trans ?_
  exact goesOn_commas hitem hbegins hcomma hclosers hne hkind hspaced hparts (by omega)
    (hline.sublist (List.sublist_append_right _ _))

/-- All between the brackets, and the closing one. -/
theorem goesOn_items (hkinds : close ∉ kinds)
    (h : Spelt (Form.optional (Form.separated form)) words) (hlength : words.length ≤ bound)
    (hline : IsLine floor (words ++ s :: behind)) :
    GoesOn (fun c => (if c.sees close then c else commaSeparated item c).expect close)
      (words ++ [s]) behind := by
  have hclose : Closes [close] (s :: behind) := closes_cons (by simp [hkind]) hspaced
  refine GoesOn.trans ?_ (goesOn_expect hkind behind)
  obtain rfl | hitems := h.optional
  · refine (GoesOn.stay _).ite_pos fun c hc => ?_
    rw [sees_of_phrase (phrase_of_signs hc (hclose.isSpaced)), hkind]
    exact beq_self_eq_true close
  · refine (goesOn_commaSeparated hitem hbegins hcomma hclosers hne hkind hspaced hitems hlength
      hline).ite_neg fun c hc => ?_
    have hbegin := hitems.begins kinds hbegins
    exact sees_of_closes (phrase_of_signs hc hbegin.isSpaced) hbegin.closes hkinds

/-- One item is a group, several are a tuple. -/
theorem goesOn_tupleOrGroup (h : Spelt (Form.separated form) words) (hlength : words.length ≤ bound)
    (hline : IsLine floor (words ++ s :: behind)) (start : Nat) (tuple group : Kind) :
    GoesOn (fun c =>
        let c := item c
        if c.sees .comma then
          wrap start tuple
            (fun c => (repeatWhile (·.sees .comma) (fun c => item c.bump) c).expect close) c
        else wrap start group (·.expect close) c)
      (words ++ [s]) behind := by
  obtain ⟨w, w', rfl, hfirst, hmore⟩ := h.mul
  obtain ⟨parts, rfl, hparts⟩ := hmore.star
  rw [List.append_assoc] at hline ⊢
  rw [List.length_append] at hlength
  have hclose : Closes [close] (s :: behind) := closes_cons (by simp [hkind]) hspaced
  have hbegin {part : List Seen} (hpart : part ∈ parts) : Begins [.comma] part :=
    (hparts part hpart).begins _ rfl
  have hbehind : Closes closers (parts.flatten ++ s :: behind) := by
    refine closes_flatten (fun part hpart => ?_) (hclose.mono (by simpa using hclosers))
    exact (hbegin hpart).mono (by simpa using hcomma)
  have hexpect := goesOn_expect hkind behind
  have htake : GoesOn item w (parts.flatten ++ [s] ++ behind) := by
    rw [List.append_assoc]
    exact (hitem w _ hfirst (by omega) hline hbehind).goesOn (hfirst.begins kinds hbegins).isSpaced
  have hrest : GoesOn (fun c =>
        if c.sees .comma then
          wrap start tuple
            (fun c => (repeatWhile (·.sees .comma) (fun c => item c.bump) c).expect close) c
        else wrap start group (·.expect close) c)
      (parts.flatten ++ [s]) behind := by
    cases parts with
    | nil =>
      refine GoesOn.ite_neg (hexpect.wrap start group) fun c hc => ?_
      rw [sees_of_phrase (phrase_of_signs hc hclose.isSpaced), hkind]
      exact beq_eq_false_iff_ne.mpr hne
    | cons part parts =>
      have hcommas := goesOn_commas hitem hbegins hcomma hclosers hne hkind hspaced hparts
        (by omega) (hline.sublist (List.sublist_append_right _ _))
      refine GoesOn.ite_pos ((hcommas.trans hexpect).wrap start tuple) fun c hc => ?_
      obtain ⟨comma, more, rfl, hcommaKind, hcommaSpaced⟩ := hbegin List.mem_cons_self
      rw [sees_of_phrase (phrase_of_signs hc (isSpaced_cons hcommaSpaced)),
        List.mem_singleton.mp hcommaKind]
      rfl
  exact htake.trans hrest

end Items

section Brackets

variable {item : Rule} {closers : List Kind} (hbegins : beginsWith kinds form = true)
include hbegins

/-- Nothing in parentheses is the unit. -/
theorem takes_parenthesized (inside : Nat → Rule) (hkinds : .rParen ∉ kinds)
    (h : Spelt (Form.parenthesized form) words)
    (hinside : ∀ start w s, Spelt (Form.separated form) w → w.length < words.length →
      (w ++ s :: behind).Sublist (words ++ behind).tail → s.kind = .rParen → s.isAttached = false →
      GoesOn (inside start) (w ++ [s]) behind) :
    Takes (fromHere fun start c =>
        let c := c.bump
        if c.sees .rParen then wrap start .unitExpr bump c else inside start c)
      words behind := by
  obtain ⟨w, w', rfl, hfront, hclose⟩ := h.mul
  obtain ⟨w, w'', rfl, hopen, hitems⟩ := hfront.mul
  obtain ⟨op, rfl, -⟩ := hopen.word
  obtain ⟨close, rfl, hkind, hspaced⟩ := hclose.word
  refine .fromHere fun start => ?_
  rw [List.append_assoc]
  suffices hrest : GoesOn (fun c =>
      if c.sees .rParen then wrap start .unitExpr bump c else inside start c)
      (w'' ++ [close]) behind from .bumped hrest
  obtain rfl | hitems := hitems.optional
  · refine GoesOn.ite_pos ((goesOn_bump close behind).wrap start .unitExpr) fun c hc => ?_
    rw [sees_of_phrase (phrase_of_signs hc (isSpaced_cons hspaced)), hkind]
    rfl
  · have hlength : w''.length < ([op] ++ w'' ++ [close]).length := by
      simp only [List.length_append, List.length_singleton]
      omega
    refine GoesOn.ite_neg (hinside start w'' close hitems hlength (by simp) hkind hspaced)
      fun c hc => ?_
    rw [List.append_assoc] at hc
    have hbegin := hitems.begins kinds hbegins
    exact sees_of_closes (phrase_of_signs hc hbegin.isSpaced) hbegin.closes hkinds

/-- A unit, a group or a tuple. -/
theorem takes_tupleOrGroup (hitem : TakesAll form closers floor bound item)
    (hkinds : .rParen ∉ kinds)
    (hcomma : .comma ∈ closers) (hclosers : .rParen ∈ closers)
    (h : Spelt (Form.parenthesized form) words) (hlength : words.length ≤ bound + 1)
    (hline : IsLine floor (words ++ behind).tail) (tuple group : Kind) :
    Takes (fromHere fun start c =>
        let c := c.bump
        if c.sees .rParen then wrap start .unitExpr bump c
        else
          let c := item c
          if c.sees .comma then
            wrap start tuple (fun c =>
              (repeatWhile (·.sees .comma) (fun c => item c.bump) c).expect .rParen) c
          else wrap start group (·.expect .rParen) c)
      words behind :=
  takes_parenthesized hbegins _ hkinds h fun start _ _ hw hlt hle hkind hspaced =>
    goesOn_tupleOrGroup hitem hbegins hcomma hclosers (by decide) hkind hspaced hw (by omega)
      (hline.sublist hle) start tuple group

variable (hitem : TakesAll form closers floor bound item) (hcomma : .comma ∈ closers)
include hitem hcomma

/-- All between square brackets. -/
theorem takes_list (hkinds : .rBracket ∉ kinds) (hclosers : .rBracket ∈ closers)
    (h : Spelt (Form.word .lBracket * Form.optional (Form.separated form) * Form.word .rBracket)
      words)
    (hlength : words.length ≤ bound + 1) (hline : IsLine floor (words ++ behind).tail) :
    Takes (fun c =>
        let c := c.bump
        let c := if c.sees .rBracket then c else commaSeparated item c
        c.expect .rBracket)
      words behind := by
  obtain ⟨w, w', rfl, hfront, hclose⟩ := h.mul
  obtain ⟨w, items, rfl, hopen, hitems⟩ := hfront.mul
  obtain ⟨op, rfl, -⟩ := hopen.word
  obtain ⟨close, rfl, hkind, hspaced⟩ := hclose.word
  have hitemsLine : IsLine floor (items ++ close :: behind) := hline.sublist (by simp)
  rw [List.append_assoc]
  exact .bumped (goesOn_items hitem hbegins hcomma hclosers (by decide) hkind hspaced hkinds hitems
    (by simp at hlength; omega) hitemsLine)

/-- Items in braces, each a name with a label behind it, perhaps with a record in front. -/
theorem takes_record (hkinds : .rBrace ∉ kinds) (hclosers : .rBrace ∈ closers)
    (h : Spelt (Form.record form) words)
    (hlabel : ∀ w, Spelt form w → ∃ name label more, w = name :: label :: more ∧ label.kind ≠ .pipe)
    (hlength : words.length ≤ bound + 1) (hline : IsLine floor (words ++ behind)) :
    Takes (fun c =>
        let c := recordBase c.bump
        let c := if c.sees .rBrace then c else commaSeparated item c
        c.expect .rBrace)
      words behind := by
  obtain ⟨w, w', rfl, hfront, hclose⟩ := h.mul
  obtain ⟨w, items, rfl, hfront, hitems⟩ := hfront.mul
  obtain ⟨w, base, rfl, hopen, hbase⟩ := hfront.mul
  obtain ⟨op, rfl, -⟩ := hopen.word
  obtain ⟨close, rfl, hkind, hspaced⟩ := hclose.word
  have hitemsLine : IsLine floor (items ++ close :: behind) :=
    hline.sublist (List.IsSuffix.sublist ⟨op :: base, by simp⟩)
  have hrest := goesOn_items hitem hbegins hcomma hclosers (by decide) hkind hspaced hkinds hitems
    (by simp at hlength; omega) hitemsLine
  have hstart : GoesOn recordBase base (items ++ [close] ++ behind) := by
    obtain rfl | hbase := hbase.optional
    · refine (GoesOn.stay _).ite_neg fun c hc => ?_
      obtain rfl | hitems := hitems.optional
      · rw [seesBoth_of_phrase (phrase_of_signs hc (isSpaced_cons hspaced)), hkind]
        rfl
      · obtain ⟨first, rest, rfl, hfirst, -⟩ := hitems.mul
        obtain ⟨name, label, more, rfl, hne⟩ := hlabel first hfirst
        obtain ⟨_, _, heq, -, hnameSpaced⟩ := hfirst.begins kinds hbegins
        obtain ⟨rfl, -⟩ := List.cons.inj heq
        rw [seesBoth_of_phrase (phrase_of_signs hc (isSpaced_cons hnameSpaced))]
        simp [hne]
    · obtain ⟨name, pipe, rfl, hname, hpipe⟩ := hbase.mul
      obtain ⟨name, rfl, hnameKind, hnameSpaced⟩ := hname.word
      obtain ⟨pipe, rfl, hpipeKind, -⟩ := hpipe.word
      have htake := (takes_tokenNode .recordBaseIdentifier name _).trans
        (goesOn_bump pipe (items ++ [close] ++ behind))
      refine GoesOn.ite_pos (htake.goesOn (isSpaced_cons hnameSpaced)) fun c hc => ?_
      rw [seesBoth_of_phrase (phrase_of_signs hc (isSpaced_cons hnameSpaced)), hnameKind]
      simp [hpipeKind]
  have hwords : [op] ++ base ++ items ++ [close] = op :: (base ++ (items ++ [close])) := by simp
  rw [hwords]
  exact .bumped (hstart.trans hrest)

end Brackets

theorem TakesAll.nonterminal {n : Nonterminal} {closers : List Kind}
    (h : TakesAll n.form closers floor bound rule) :
    TakesAll (Form.rule n) closers floor bound rule :=
  fun words behind hwords => h words behind hwords.rule

/-- A name, a label, and what the label is for. -/
theorem TakesAll.labelled {inner : Rule} {closers : List Kind} {label : Kind}
    (hinner : TakesAll form closers floor bound inner) (hbegins : beginsWith kinds form = true)
    (kind : Kind) (cause : SyntaxError.Cause) :
    TakesAll (Form.word .lowerIdent * Form.word label * form) closers floor bound fun c =>
      if c.sees .lowerIdent then Cursor.node kind (fun c => c.bump.expectThen label inner) c
      else c.error cause := by
  intro words behind h hlength hline hclose
  obtain ⟨w, w', rfl, hfront, hform⟩ := h.mul
  obtain ⟨name, sep, rfl, hname, hsep⟩ := hfront.mul
  obtain ⟨name, rfl, hkind, -⟩ := hname.word
  obtain ⟨sep, rfl, hsepKind, -⟩ := hsep.word
  have htake := (hinner w' behind hform (by simp at hlength; omega)
    (hline.sublist (List.IsSuffix.sublist ⟨[name, sep], by simp⟩)) hclose).goesOn
      (hform.begins kinds hbegins).isSpaced
  refine Takes.ite_pos (.node (.bumped (goesOn_expectThen hsepKind htake))) fun c hc => ?_
  rw [sees_of_phrase hc, hkind]
  rfl

end ElmLint.Syntax
