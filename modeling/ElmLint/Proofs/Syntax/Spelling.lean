import ElmLint.Proofs.Syntax.Emission
import ElmLint.Proofs.Syntax.Production
import Mathlib.Algebra.Order.Kleene
import Mathlib.Order.CompletePartialOrder

/-!
# How nodes are spelled

Imports, lists of exposed items and patterns are edited, and an edit has to know which tokens stand
where among the parts of a node. What the parts of such a node are, white space and comments
left out, is a regular expression over kinds, as its children are by its production.
-/

namespace ElmLint.Syntax

open RegularExpression (star)
open Production
open scoped Computability

variable {c c' c'' : Cursor} {kind token : Kind} {form form' : RegularExpression Kind}

theorem Production.mem_oneOf {kinds : List Kind} (hmem : kind ∈ kinds) : [kind] ∈ (oneOf kinds).matches' := by
  induction kinds with
  | nil => cases hmem
  | cons head kinds ih =>
    cases hmem with
    | head => exact .inl rfl
    | tail _ hmem => exact .inr (ih hmem)

theorem Kind.mem_all (kind : Kind) : kind ∈ Kind.all := by cases kind <;> decide

/-- Any parts at all. -/
def Production.anything : RegularExpression Kind := star (oneOf Kind.all)

/-- Items with commas between them. -/
def Production.separated (item : RegularExpression Kind) : RegularExpression Kind :=
  item * star (one .comma * item)

theorem Production.le_separated (item : RegularExpression Kind) :
    item.matches' ≤ (separated item).matches' := le_mul_of_one_le_right' one_le_kstar

/-- One more item in front. -/
theorem Production.separated_le (item : RegularExpression Kind) :
    (item * (one .comma * separated item)).matches' ≤ (separated item).matches' := by
  simp only [separated, RegularExpression.matches'_mul, RegularExpression.matches'_star,
    ← mul_assoc (one .comma).matches']
  exact mul_le_mul_right mul_kstar_le_kstar _

/-- Items are separated by single commas. -/
theorem Production.exists_of_mem_separated {items word : List Kind}
    (hform : ∀ word ∈ form.matches', ∃ kind ∈ items, word = [kind])
    (h : word ∈ (separated form).matches') :
    ∃ first ∈ items, ∃ others : List Kind, (∀ kind ∈ others, kind ∈ items) ∧
      word = first :: others.flatMap ([Kind.comma, ·]) := by
  obtain ⟨front, hfront, back, hback, rfl⟩ := Language.mem_mul.mp h
  obtain ⟨first, hfirst, rfl⟩ := hform front hfront
  obtain ⟨rows, rfl, hrows⟩ := Language.mem_kstar.mp hback
  have hothers : ∃ others : List Kind, (∀ kind ∈ others, kind ∈ items) ∧
      rows.flatten = others.flatMap ([Kind.comma, ·]) := by
    clear h hback
    induction rows with
    | nil => exact ⟨[], nofun, rfl⟩
    | cons row rows ih =>
      obtain ⟨hrow, hmore⟩ := List.forall_mem_cons.mp hrows
      obtain ⟨comma, hcomma, item, hitem, rfl⟩ := Language.mem_mul.mp hrow
      obtain rfl : comma = [.comma] := hcomma
      obtain ⟨kind, hkind, rfl⟩ := hform item hitem
      obtain ⟨others, hothers, hword⟩ := ih hmore
      exact ⟨kind :: others, List.forall_mem_cons.mpr ⟨hkind, hothers⟩, by simp [hword]⟩
  obtain ⟨others, hothers, hword⟩ := hothers
  exact ⟨first, hfirst, others, hothers, by rw [hword, List.singleton_append]⟩

/-- What stands between an opening and a closing token. -/
theorem Production.exists_of_mem_enclosed {first last : Kind} {word : List Kind}
    (h : word ∈ (one first * form * one last).matches') :
    ∃ inside ∈ form.matches', word = (first :: inside) ++ [last] := by
  obtain ⟨front, hfront, back, hback, rfl⟩ := Language.mem_mul.mp h
  obtain ⟨opening, hopening, inside, hinside, rfl⟩ := Language.mem_mul.mp hfront
  obtain rfl : opening = [first] := hopening
  obtain rfl : back = [last] := hback
  exact ⟨inside, hinside, rfl⟩

/-- The parts of a node of the kind. Other nodes are spelled in any way. -/
def Kind.spelling? : Kind → Option (RegularExpression Kind)
  | .importClause => some (one .importKw * one .upperCaseQid * atMostOne .asClause *
      (1 + one .exposingKw * one .exposingList))
  | .asClause => some (one .asKw * one .upperIdent)
  | .exposingList =>
    some (one .lParen * (one .dotDot + separated (oneOf exposedKinds)) * one .rParen)
  | .exposedValue | .lowerPattern => some (one .lowerIdent)
  | .exposedType => some (one .upperIdent * atMostOne .exposedUnionConstructors)
  | .exposedUnionConstructors => some (one .lParen * one .dotDot * one .rParen)
  | .exposedOperator => some (one .lParen * one .operatorIdent * one .rParen)
  | .recordPattern => some (one .lBrace * separated (one .lowerPattern) * one .rBrace)
  | .upperCaseQid => some (one .upperIdent * star (one .dot * one .upperIdent))
  | .anythingPattern => some (one .underscore)
  | .literalPattern => some (oneOf [.number, .string, .char] + one .operatorIdent * one .number)
  | .unitExpr => some (one .lParen * one .rParen)
  | .unionPattern => some (one .upperCaseQid * star atomicPattern)
  | .tuplePattern | .parenthesizedPattern =>
    some (one .lParen * separated pattern * one .rParen)
  | .listPattern => some (one .lBracket * (1 + separated pattern) * one .rBracket)
  | .consPattern => some (atomicPattern * one .operatorIdent * oneOf consPatternKinds)
  | .asPattern => some (oneOf consPatternKinds * one .asKw * one .lowerPattern)
  | .caseOfBranch => some (pattern * one .arrow * anything)
  | .valueDeclaration =>
    some (oneOf (.functionDeclarationLeft :: patternKinds) * one .eq * anything)
  | _ => none

namespace Tree

/-- The kinds of the trees that are neither white space nor comments. -/
def partKinds (trees : List Tree) : List Kind := (trees.map Tree.kind).filter (!·.isTrivia)

theorem partKinds_singleton {tree : Tree} (h : tree.kind = kind) (hkind : kind.isTrivia = false) :
    partKinds [tree] = [kind] := by
  subst h
  exact List.filter_cons_of_pos (by simp [hkind])

theorem partKinds_append (first second : List Tree) :
    partKinds (first ++ second) = partKinds first ++ partKinds second := by
  simp [partKinds]

/-- The trees may be the parts of a node of the kind. -/
def IsSpelt (kind : Kind) (trees : List Tree) : Prop :=
  ∀ form ∈ kind.spelling?, partKinds trees ∈ form.matches'

end Tree

open Tree (partKinds)

theorem Cursor.partKinds_trivia (c : Cursor) : partKinds (c.trivia.map PlacedToken.leaf) = [] := by
  refine List.filter_eq_nil_iff.mpr fun kind hkind => ?_
  obtain ⟨tree, htree, rfl⟩ := List.mem_map.mp hkind
  obtain ⟨t, ht, rfl⟩ := List.mem_map.mp htree
  have htrivia : t.kind.isTrivia = true := by simpa using List.mem_takeWhile_imp ht
  simpa [PlacedToken.leaf, Tree.kind] using htrivia

/-- Unless an error is recorded on the way, what is emitted is spelled after the form. -/
def Writes (c : Cursor) (form : RegularExpression Kind) (c' : Cursor) : Prop :=
  ∃ trees, Emits c trees c' ∧ (c'.errors = c.errors → partKinds trees ∈ form.matches')

namespace Writes

theorem refl (c : Cursor) : Writes c 1 c := ⟨[], .refl c, fun _ => rfl⟩

theorem mono (h : Writes c form c') (hle : form.matches' ≤ form'.matches') : Writes c form' c' := by
  obtain ⟨trees, hemits, hword⟩ := h
  exact ⟨trees, hemits, fun herrors => hle (hword herrors)⟩

theorem trans (h : Writes c form c') (h' : Writes c' form' c'') : Writes c (form * form') c'' := by
  obtain ⟨trees, hemits, hword⟩ := h
  obtain ⟨trees', hemits', hword'⟩ := h'
  refine ⟨trees ++ trees', hemits.trans hemits', fun herrors => ?_⟩
  obtain ⟨hfirst, hsecond⟩ := hemits.errors_eq hemits' herrors
  rw [Tree.partKinds_append]
  exact Language.append_mem_mul (hword hfirst) (hword' hsecond)

/-- White space and comments in front. -/
theorem skipTrivia (h : Writes c.skipTrivia form c') : Writes c form c' := by
  obtain ⟨trees, hemits, hword⟩ := h
  refine ⟨_, (Emits.skipTrivia c).trans hemits, fun herrors => ?_⟩
  rw [Tree.partKinds_append, c.partKinds_trivia, List.nil_append]
  exact hword ((Emits.skipTrivia c).errors_eq hemits herrors).2

theorem bump (hkind : c.kind? = some token) : Writes c (one token) c.bump := by
  obtain ⟨t, tokens, hahead, rfl⟩ := Cursor.ahead_of_kind? hkind
  have hpart : partKinds [t.leaf] = [t.kind] :=
    Tree.partKinds_singleton rfl (Cursor.isTrivia_of_ahead hahead)
  refine ⟨_, .bump hahead, fun _ => ?_⟩
  rw [Tree.partKinds_append, c.partKinds_trivia, hpart]
  rfl

/-- The first token of a rule that was looked at from where the rule was called. -/
theorem first (hahead : c'.ahead = c.ahead) (hkind : c.kind? = some token) :
    Writes c' (one token) c'.bump := bump ((Cursor.kind?_congr hahead).trans hkind)

theorem error (cause : SyntaxError.Cause) (h : Writes c form c') :
    Writes c form' (c'.error cause) := by
  obtain ⟨trees, hemits, -⟩ := h
  refine ⟨trees, hemits.error cause, fun herrors => ?_⟩
  have hlonger := congrArg List.length herrors
  have := hemits.errors.length_le
  simp only [Cursor.error, List.length_cons] at hlonger
  omega

theorem anything {trees : List Tree} (h : Emits c trees c') : Writes c Production.anything c' := by
  refine ⟨trees, h, fun _ => Language.mem_kstar.mpr ⟨(partKinds trees).map ([·]), ?_, ?_⟩⟩
  · rw [← List.flatMap_def, List.flatMap_singleton']
  · rintro _ hword
    obtain ⟨kind, -, rfl⟩ := List.mem_map.mp hword
    exact mem_oneOf (Kind.mem_all kind)

theorem expect (c : Cursor) (token : Kind) : Writes c (one token) (c.expect token) := by
  unfold Cursor.expect
  split
  · exact bump (Cursor.sees_iff.mp ‹_›)
  · exact (refl c).error _

theorem repeatWhile_star {more : Cursor → Bool} {rule : Rule}
    (round : ∀ c' : Cursor, c'.rest.length ≤ c.rest.length → more c' = true →
      Writes c' form (rule c') ∧ (rule c').rest.length < c'.rest.length) :
    Writes c (star form) (c.repeatWhile more rule) := by
  refine (Cursor.repeatWhile_induction (P := (Writes c (star form) ·)) ?_ c ?_).1
  · intro c' h hmore
    obtain ⟨trees, hemits, -⟩ := id h
    obtain ⟨hround, hlt⟩ := round c' hemits.length_le hmore
    exact ⟨(h.trans hround).mono kstar_mul_le_kstar, hlt⟩
  · exact (refl c).mono one_le_kstar

/-- A node is one part, whatever is in it. -/
theorem of_emits {trees : List Tree}
    (h : Emits c (c.trivia.map PlacedToken.leaf ++ [.node kind trees]) c')
    (hkind : kind.isTrivia = false) : Writes c (one kind) c' := by
  have hpart : partKinds [Tree.node kind trees] = [kind] := Tree.partKinds_singleton rfl hkind
  refine ⟨_, h, fun _ => ?_⟩
  rw [Tree.partKinds_append, c.partKinds_trivia, hpart]
  rfl

end Writes

/-- Unless an error is recorded on the way, what is emitted are parts for a node of the kind. -/
def Spells (kind : Kind) (c c' : Cursor) : Prop := ∀ form ∈ kind.spelling?, Writes c form c'

/-- What comes up to `c'` and what the rule adds are parts for a node of the kind. -/
def SpellsAround (kind : Kind) (c c' : Cursor) (rule : Rule) : Prop :=
  ∀ form ∈ kind.spelling?, ∃ first second : RegularExpression Kind,
    (first * second).matches' ≤ form.matches' ∧ Writes c first c' ∧
      ∀ c₀ : Cursor, c₀.rest = c'.rest → Writes c₀ second (rule c₀)

namespace Spells

theorem of_free (h : kind.spelling? = none) (c c' : Cursor) : Spells kind c c' := by
  rw [Spells, h]
  exact nofun

theorem of_writes (h : kind.spelling? = some form) (hwrites : Writes c form c') :
    Spells kind c c' := by
  rw [Spells, h]
  rintro _ ⟨⟩
  exact hwrites

theorem isSpelt {trees : List Tree} (h : Spells kind c c') (hemits : Emits c trees c')
    (herrors : c'.errors = c.errors) : Tree.IsSpelt kind trees := by
  intro form hform
  obtain ⟨trees', hemits', hword⟩ := h form hform
  rw [hemits.trees_eq hemits']
  exact hword herrors

end Spells

namespace SpellsAround

variable {rule : Rule}

theorem of_free (h : kind.spelling? = none) : SpellsAround kind c c' rule := by
  rw [SpellsAround, h]
  exact nofun

theorem of_writes {first second : RegularExpression Kind} (h : kind.spelling? = some form)
    (hfirst : Writes c first c')
    (hsecond : ∀ c₀ : Cursor, c₀.rest = c'.rest → Writes c₀ second (rule c₀))
    (hle : (first * second).matches' ≤ form.matches') : SpellsAround kind c c' rule := by
  rw [SpellsAround, h]
  rintro _ ⟨⟩
  exact ⟨first, second, hle, hfirst, hsecond⟩

theorem isSpelt {trees trees' : List Tree} {c₀ : Cursor} (h : SpellsAround kind c c' rule)
    (hrest : c₀.rest = c'.rest) (hemits : Emits c trees c') (hemits' : Emits c₀ trees' (rule c₀))
    (herrors : c'.errors = c.errors) (herrors' : (rule c₀).errors = c₀.errors) :
    Tree.IsSpelt kind (trees ++ trees') := by
  intro form hform
  obtain ⟨first, second, hle, ⟨front, hfront, hword⟩, hsecond⟩ := h form hform
  obtain ⟨back, hback, hword'⟩ := hsecond c₀ hrest
  rw [hemits.trees_eq hfront, hemits'.trees_eq hback, Tree.partKinds_append]
  exact hle (Language.append_mem_mul (hword herrors) (hword' herrors'))

end SpellsAround

end ElmLint.Syntax
