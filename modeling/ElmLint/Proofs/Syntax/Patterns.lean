import ElmLint.Proofs.Syntax.Types
import ElmLint.Syntax.Grammar.Pattern

/-!
# Patterns follow their productions

A pattern inside a pattern comes behind an opening bracket or a comma, the tail of a list pattern
behind its `::`.
-/

namespace ElmLint.Syntax

open Grammar
open RegularExpression (star)
open Production (one oneOf atLeastOne separated le_separated separated_le atomicPatternKinds
  consPatternKinds patternKinds)
open scoped Computability

variable {c c' : Cursor} {bound floor : Nat} {pattern cons : Rule}

/-! ## Atomic patterns -/

theorem parses_patternFields (rounds : Nat) (hrounds : c.rest.length < rounds) :
    Parses 0 c (atLeastOne (one .lowerPattern)) (patternFields rounds c) := by
  induction rounds generalizing c with
  | zero => omega
  | succ rounds ih =>
    rw [patternFields]
    split
    · rename_i hname
      have hfield : Parses 1 c (one .lowerPattern) (Cursor.tokenNode .lowerPattern c) :=
        .tokenNode (Cursor.sees_iff.mp hname) (by decide) rfl rfl
      dsimp only
      split
      · rename_i hcomma
        have hfirst := hfield.bump (Cursor.sees_iff.mp hcomma) (by decide)
        have hlt := hfirst.length_le
        refine ((hfirst.trans (ih (by omega))).weaken (Nat.zero_le _)).mono ?_
        exact mul_le_mul_right mul_kstar_le_kstar _
      · exact (hfield.weaken (Nat.zero_le _)).mono (le_mul_of_one_le_right' one_le_kstar)
    · exact (Parses.refl c).error _

theorem writes_patternFields (rounds : Nat) (hrounds : c.rest.length < rounds) :
    Writes c (separated (one .lowerPattern)) (patternFields rounds c) := by
  induction rounds generalizing c with
  | zero => omega
  | succ rounds ih =>
    rw [patternFields]
    split
    · rename_i hname
      have hfield : Makes 1 c .lowerPattern (Cursor.tokenNode .lowerPattern c) :=
        makes_tokenNode (Cursor.sees_iff.mp hname) (by decide) rfl rfl
      dsimp only
      split
      · rename_i hcomma
        have hcomma := Cursor.sees_iff.mp hcomma
        have hlt := (hfield.parses.bump hcomma (by decide)).length_le
        exact ((hfield.writes rfl).trans ((Writes.bump hcomma).trans (ih (by omega)))).mono
          (separated_le _)
      · exact (hfield.writes rfl).mono (le_separated _)
    · exact (Writes.refl c).error _

theorem makes_recordPattern (hkind : c.kind? = some .lBrace) :
    Makes 1 c .recordPattern (recordPattern c) := by
  refine makes_spelt fun c₀ hahead hle => ⟨?_, .of_writes rfl ?_⟩
  · have hopen : Parses 1 c₀ 1 c₀.bump := .first hahead hkind (by decide)
    exact (hopen.one_trans (parses_patternFields _ (Nat.lt_succ_self _))).expect (by decide)
  · exact ((Writes.first hahead hkind).trans (writes_patternFields _ (Nat.lt_succ_self _))).trans
      (.expect _ _)

theorem makes_negativeNumber (hminus : c.seesOperator "-" = true) :
    Makes 1 c .literalPattern
      (Cursor.node .literalPattern (fun c => c.bump.expect .number) c) := by
  have hkind := Cursor.kind?_of_seesOperator hminus
  refine makes_spelt fun c₀ hahead _ => ⟨?_, .of_writes rfl ?_⟩
  · exact (Parses.first hahead hkind (by decide)).expect (by decide)
  · exact ((Writes.first hahead hkind).trans (.expect _ _)).mono le_add_self

theorem atPattern_congr (h : c'.ahead = c.ahead) : atPattern c' = atPattern c := by
  simp only [atPattern, Cursor.seesAny, Cursor.seesOperator, Cursor.kind?_congr h,
    Cursor.secondKind?_congr h, Cursor.next?, h]

section Nested

variable (hpattern : MakesBelow bound pattern patternKinds)
include hpattern

theorem makesOne_parenthesizedPattern (hbound : c.rest.length ≤ bound)
    (hkind : c.kind? = some .lParen) :
    MakesOne 1 c atomicPatternKinds (parenthesizedPattern pattern c) := by
  refine .fromHere fun c₀ hahead htoken hle => ?_
  have hopen : Parses 1 c₀ 1 c₀.bump := .first hahead hkind (by decide)
  have hword : Writes c₀ (one .lParen) c₀.bump := .first hahead hkind
  have hbound₀ : c₀.rest.length ≤ bound := Nat.le_trans hle hbound
  dsimp only
  split
  · rename_i hclose
    exact hopen.unit htoken hword hclose (by decide)
  · have hfirst := hpattern.nested hopen hbound₀
    have hlength := (hopen.one_trans hfirst.parses).length_le
    refine (hopen.one_trans hfirst.parses).tupleOrGroup htoken hpattern.parses hbound₀ rfl le_rfl
      (by decide) ⟨rfl, rfl⟩ ⟨fun _ => ?_, ?_⟩
    · refine .of_writes rfl (hword.trans hfirst.writes) (fun c₁ hrest =>
        (hpattern.commas (by rw [hrest]; omega)).trans (.expect _ _)) ?_
      simp only [Production.pattern, separated, RegularExpression.matches'_mul, mul_assoc]
      exact le_rfl
    · refine .of_writes rfl (hword.trans hfirst.writes) (fun c₁ _ => .expect _ _) ?_
      exact mul_le_mul_left (mul_le_mul_right (le_separated _) _) _

theorem makes_listPattern (hbound : c.rest.length ≤ bound) (hkind : c.kind? = some .lBracket) :
    Makes 1 c .listPattern (listPattern pattern c) := by
  refine makes_spelt fun c₀ hahead hle => ?_
  have hopen : Parses 1 c₀ 1 c₀.bump := .first hahead hkind (by decide)
  have hbound₀ : c₀.rest.length ≤ bound := Nat.le_trans hle hbound
  have hitems : Writes c₀.bump (1 + separated Production.pattern)
      (if c₀.bump.sees .rBracket then c₀.bump else c₀.bump.commaSeparated pattern) := by
    split
    · exact (Writes.refl _).mono le_self_add
    · have hlength := hopen.length_le
      exact (hpattern.commaSeparated (by omega)).mono le_add_self
  refine ⟨(hopen.items hpattern.parses hbound₀ (by decide)).mono (one_mul _).le, .of_writes rfl ?_⟩
  exact ((Writes.first hahead hkind).trans hitems).trans (.expect _ _)

theorem makesOne_atomicPattern (hbound : c.rest.length ≤ bound) :
    MakesOne (atPattern c).toNat c atomicPatternKinds (atomicPattern pattern c) := by
  have hbound' : c.skipTrivia.rest.length ≤ bound :=
    Nat.le_trans (Emits.skipTrivia c).length_le hbound
  refine .skipTrivia ?_
  rw [← atPattern_congr c.ahead_skipTrivia]
  unfold atomicPattern
  dsimp only
  split
  case h_1 hkind | h_2 hkind | h_4 hkind | h_5 hkind | h_6 hkind =>
    exact (makes_tokenNode hkind (by decide) rfl rfl).one (by decide) rfl (Bool.toNat_le _)
  case h_3 hkind =>
    have hname : Makes 1 c.skipTrivia .unionPattern _ :=
      makes_spelt fun c₀ hahead _ =>
        ⟨(parses_upperCaseName ((Cursor.kind?_congr hahead).trans hkind)).mono
          (le_mul_of_one_le_right' one_le_kstar),
        .of_writes rfl ((writes_upperCaseName c₀).mono (le_mul_of_one_le_right' one_le_kstar))⟩
    exact hname.one (by decide) rfl (Bool.toNat_le _)
  case h_7 hkind =>
    exact (makesOne_parenthesizedPattern hpattern hbound' hkind).weaken (Bool.toNat_le _)
  case h_8 hkind =>
    exact (makes_listPattern hpattern hbound' hkind).one (by decide) rfl (Bool.toNat_le _)
  case h_9 hkind => exact (makes_recordPattern hkind).one (by decide) rfl (Bool.toNat_le _)
  case h_10 =>
    split
    · rename_i hminus
      exact (makes_negativeNumber hminus).one (by decide) rfl (Bool.toNat_le _)
    · rename_i hminus
      have hnot : atPattern c.skipTrivia = false := by
        rw [Bool.eq_false_iff]
        intro hat
        simp only [atPattern, hminus, Bool.false_and, Bool.or_false] at hat
        obtain ⟨kind, hmem, hkind⟩ := Cursor.kind?_of_seesAny hat
        simp only [List.mem_cons, List.not_mem_nil, or_false] at hmem
        obtain rfl | rfl | rfl | rfl | rfl | rfl | rfl | rfl | rfl := hmem <;> contradiction
      rw [hnot]
      exact .error _ _ _

theorem makesOne_furtherPattern (hbound : c.rest.length ≤ bound) (hat : atPattern c = true) :
    MakesOne 1 c atomicPatternKinds (atomicPattern pattern c) := by
  have hmakes := makesOne_atomicPattern hpattern hbound
  rwa [hat] at hmakes

/-! ## Constructors, tails and names -/

theorem makesOne_constructorPattern (floor : Nat) (hbound : c.rest.length ≤ bound) :
    MakesOne (atPattern c).toNat c atomicPatternKinds (constructorPattern floor pattern c) := by
  unfold constructorPattern
  split
  · rename_i hname
    refine (makes_spelt fun c₀ hahead hle => ?_).one (by decide) rfl (Bool.toNat_le _)
    have happlied := parses_upperCaseName
      ((Cursor.kind?_congr hahead).trans (Cursor.sees_iff.mp hname))
    have hround (c' : Cursor) (hle' : c'.rest.length ≤ (upperCaseName c₀).rest.length)
        (hmore : atPatternArgument floor c' = true) :
        MakesOne 1 c' atomicPatternKinds (atomicPattern pattern c') := by
      have := happlied.length_le
      exact makesOne_furtherPattern hpattern (by omega) (Bool.and_eq_true_iff.mp hmore).1
    refine ⟨happlied.trans (.repeatWhile_star fun c' hle' hmore => (hround c' hle' hmore).parses),
      .of_writes rfl ((writes_upperCaseName c₀).trans (.repeatWhile_star fun c' hle' hmore => ?_))⟩
    exact ⟨(hround c' hle' hmore).writes, (hround c' hle' hmore).parses.length_le⟩
  · exact makesOne_atomicPattern hpattern hbound

theorem makesOne_consOver (hcons : MakesBelow bound cons consPatternKinds) (floor : Nat)
    (hbound : c.rest.length ≤ bound) :
    MakesOne (atPattern c).toNat c consPatternKinds (consOver floor pattern cons c) := by
  refine .fromHere fun c₀ hahead htoken hle => ?_
  have hfirst := makesOne_constructorPattern hpattern floor (Nat.le_trans hle hbound)
  have hlength := hfirst.parses.length_le
  rw [← atPattern_congr hahead]
  dsimp only
  split
  · rename_i hmore
    have hoperator (c' : Cursor) (hrest : c'.rest = (constructorPattern floor pattern c₀).rest) :
        c'.kind? = some .operatorIdent := by
      rw [Cursor.kind?_congr (Cursor.ahead_congr hrest)]
      exact Cursor.kind?_of_seesOperator (Bool.and_eq_true_iff.mp hmore).1
    have htail (c' : Cursor) (hrest : c'.rest = (constructorPattern floor pattern c₀).rest) :
        MakesOne 0 c'.bump consPatternKinds
          (if atPattern c'.bump then cons c'.bump
          else c'.bump.error .expectedPatternAfterCons) := by
      have hbump : Parses 1 c' 1 c'.bump := (Parses.refl c').bump (hoperator c' hrest) (by decide)
      split
      · exact hcons.nested hbump (by rw [hrest]; omega)
      · exact .error _ _ _
    have hspells : SpellsAround .consPattern c₀ (constructorPattern floor pattern c₀) fun c =>
        if atPattern c.bump then cons c.bump else c.bump.error .expectedPatternAfterCons := by
      refine .of_writes rfl hfirst.writes (fun c' hrest =>
        (Writes.bump (hoperator c' hrest)).trans (htail c' hrest).writes) ?_
      simp only [RegularExpression.matches'_mul, mul_assoc]
      exact le_rfl
    refine hfirst.parses.makesOne_wrap htoken (fun c' hrest => ?_) le_rfl (Nat.succ_pos _) hspells
      (by decide) rfl (Nat.le_add_right _ 1)
    exact ((Parses.refl c').bump (hoperator c' hrest) (by decide)).one_trans
      (htail c' hrest).parses
  · exact hfirst.subset (by decide)

theorem makesOne_patternOver (hcons : MakesBelow bound cons consPatternKinds) (floor : Nat)
    (hbound : c.rest.length ≤ bound) :
    MakesOne (atPattern c).toNat c patternKinds (patternOver floor pattern cons c) := by
  refine .fromHere fun c₀ hahead htoken hle => ?_
  have hfirst := makesOne_consOver hpattern hcons floor (Nat.le_trans hle hbound)
  rw [← atPattern_congr hahead]
  dsimp only
  split
  · rename_i hmore
    have hkeyword (c' : Cursor) (hrest : c'.rest = (consOver floor pattern cons c₀).rest) :
        c'.kind? = some .asKw := by
      rw [Cursor.kind?_congr (Cursor.ahead_congr hrest)]
      exact Cursor.sees_iff.mp hmore
    have hname (c' : Cursor) : MakesOne 0 c'.bump [.lowerPattern]
        (if c'.bump.sees .lowerIdent then Cursor.tokenNode .lowerPattern c'.bump
        else c'.bump.error .expectedNameAfterAs) := by
      split
      · rename_i hlower
        exact (makes_tokenNode (Cursor.sees_iff.mp hlower) (by decide) rfl rfl).one (by decide) rfl
          (Nat.zero_le _)
      · exact .error _ _ _
    have hsingle : (oneOf [Kind.lowerPattern]).matches' ≤ (one .lowerPattern).matches' := by
      intro word hword
      obtain ⟨kind, hmem, rfl⟩ := Production.exists_of_mem_oneOf hword
      rw [List.mem_singleton.mp hmem]
      rfl
    have hspells : SpellsAround .asPattern c₀ (consOver floor pattern cons c₀) fun c =>
        if c.bump.sees .lowerIdent then Cursor.tokenNode .lowerPattern c.bump
        else c.bump.error .expectedNameAfterAs := by
      refine .of_writes rfl hfirst.writes (fun c' hrest =>
        (Writes.bump (hkeyword c' hrest)).trans ((hname c').writes.mono hsingle)) ?_
      simp only [RegularExpression.matches'_mul, mul_assoc]
      exact le_rfl
    refine hfirst.parses.makesOne_wrap htoken (fun c' hrest => ?_) (mul_le_mul_right hsingle _)
      (Nat.succ_pos _) hspells (by decide) rfl (Nat.le_add_right _ 1)
    exact ((Parses.refl c').bump (hkeyword c' hrest) (by decide)).one_trans (hname c').parses
  · exact hfirst.subset (by decide)

end Nested

/-! ## Whole patterns -/

theorem makesBelow_patternWithin (floor depth : Nat) :
    MakesBelow depth (patternWithin floor depth) patternKinds ∧
      MakesBelow depth (consWithin floor depth) consPatternKinds := by
  induction depth with
  | zero => exact ⟨makesBelow_zero _ _, makesBelow_zero _ _⟩
  | succ depth ih =>
    obtain ⟨hpattern, hcons⟩ := ih
    constructor
    · intro c hc
      exact (makesOne_patternOver hpattern hcons floor (Nat.le_of_lt_succ hc)).weaken
        (Nat.zero_le _)
    · intro c hc
      exact (makesOne_consOver hpattern hcons floor (Nat.le_of_lt_succ hc)).weaken (Nat.zero_le _)

/-- A pattern, which consumes a token when it can start at all. -/
theorem makesOne_pattern (floor : Nat) (c : Cursor) :
    MakesOne (atPattern c).toNat c patternKinds (Grammar.pattern floor c) := by
  obtain ⟨hpattern, hcons⟩ := makesBelow_patternWithin floor c.rest.length
  exact makesOne_patternOver hpattern hcons floor (Nat.le_refl _)

theorem parses_parameter (floor : Nat) (hat : atPattern c = true) :
    Parses 1 c Production.atomicPattern (parameter floor c) :=
  (makesOne_furtherPattern (fun c' _ => (makesOne_pattern floor c').weaken (Nat.zero_le _))
    (Nat.le_refl _) hat).parses

end ElmLint.Syntax
