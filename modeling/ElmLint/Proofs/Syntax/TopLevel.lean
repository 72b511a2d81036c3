import ElmLint.Proofs.Syntax.Expressions
import ElmLint.Syntax.Grammar.File

/-!
# Top-level items follow their productions

Where a token fits nothing, `recover` records an error before it takes the token, so no error node
and no stray token comes without an error.
-/

namespace ElmLint.Syntax

open Grammar
open RegularExpression (star)
open Production (one oneOf atMostOne atLeastOne separated le_separated separated_le exposedKinds
  topLevelKinds)
open scoped Computability

variable {c c' : Cursor} {bound floor : Nat}

/-! ## Header and imports -/

theorem makes_exposedUnionConstructors (h : c.seesBoth .lParen .dotDot = true) :
    Makes 2 c .exposedUnionConstructors
      (c.node .exposedUnionConstructors fun c => c.bump.bump.expect .rParen) := by
  obtain ⟨hopen, hdots⟩ := Cursor.kind?_of_seesBoth h
  refine makes_spelt fun c₀ hahead _ => ?_
  rw [Cursor.kind?_bump, ← Cursor.secondKind?_congr hahead, ← Cursor.kind?_bump] at hdots
  refine ⟨((Parses.first hahead hopen (by decide)).bump hdots (by decide)).expect (by decide),
    .of_writes rfl ?_⟩
  exact ((Writes.bump ((Cursor.kind?_congr hahead).trans hopen)).trans (.bump hdots)).trans
    (.expect _ _)

theorem makes_exposedType (hkind : c.kind? = some .upperIdent) :
    Makes 1 c .exposedType (c.node .exposedType fun c =>
      let c := c.bump
      if c.seesBoth .lParen .dotDot then
        c.node .exposedUnionConstructors fun c => c.bump.bump.expect .rParen
      else c) := by
  refine makes_spelt fun c₀ hahead _ => ?_
  have hname : Parses 1 c₀ 1 c₀.bump := .first hahead hkind (by decide)
  have hword : Writes c₀ (one .upperIdent) c₀.bump :=
    .bump ((Cursor.kind?_congr hahead).trans hkind)
  dsimp only
  split
  · have hconstructors := makes_exposedUnionConstructors ‹_›
    refine ⟨((hname.one_trans hconstructors.parses).weaken (Nat.le_add_right 1 2)).mono
      le_add_self, .of_writes rfl ?_⟩
    exact hword.trans ((hconstructors.writes rfl).mono le_add_self)
  · exact ⟨hname.mono le_self_add, .of_writes rfl (hword.trans ((Writes.refl _).mono le_self_add))⟩

theorem makes_exposedOperator (hkind : c.kind? = some .lParen) :
    Makes 1 c .exposedOperator
      (c.node .exposedOperator fun c => (c.bump.expect .operatorIdent).expect .rParen) := by
  refine makes_spelt fun c₀ hahead _ => ⟨?_, .of_writes rfl ?_⟩
  · have hopen : Parses 1 c₀ 1 c₀.bump := .first hahead hkind (by decide)
    exact (hopen.expect (by decide)).expect (by decide)
  · exact ((Writes.bump ((Cursor.kind?_congr hahead).trans hkind)).trans (.expect _ _)).trans
      (.expect _ _)

theorem makesOne_exposedItem (c : Cursor) : MakesOne 0 c exposedKinds (exposedItem c) := by
  refine .skipTrivia ?_
  unfold exposedItem
  dsimp only
  split
  · exact (makes_tokenNode ‹_› (by decide) rfl rfl).one (by decide) rfl (Nat.zero_le 1)
  · exact (makes_exposedType ‹_›).one (by decide) rfl (Nat.zero_le 1)
  · exact (makes_exposedOperator ‹_›).one (by decide) rfl (Nat.zero_le 1)
  · exact .error _ _ _

/-- A comma behind an item leaves fewer tokens. -/
theorem exposedItem_comma (h : (exposedItem c).sees .comma = true) :
    Parses 1 c (oneOf exposedKinds) (exposedItem c).bump :=
  (makesOne_exposedItem c).parses.bump (Cursor.sees_iff.mp h) (by decide)

theorem parses_exposedItems (rounds : Nat) (hrounds : c.rest.length < rounds) :
    Parses 0 c (star (oneOf exposedKinds)) (exposedItems rounds c) := by
  induction rounds generalizing c with
  | zero => omega
  | succ rounds ih =>
    rw [exposedItems]
    split
    · exact (makesOne_exposedItem c).parses.mono le_kstar
    · rename_i hmore
      simp only [Bool.or_eq_true, decide_eq_true_eq, Bool.not_eq_true', not_or,
        Bool.not_eq_false] at hmore
      have hcomma := exposedItem_comma hmore.2
      have hlength := hcomma.length_le
      exact ((hcomma.trans (ih (by omega))).weaken (Nat.zero_le _)).mono mul_kstar_le_kstar

theorem writes_exposedItems (rounds : Nat) (hrounds : c.rest.length < rounds) :
    Writes c (separated (oneOf exposedKinds)) (exposedItems rounds c) := by
  induction rounds generalizing c with
  | zero => omega
  | succ rounds ih =>
    have hitem := (makesOne_exposedItem c).writes
    rw [exposedItems]
    split
    · exact hitem.mono (le_separated _)
    · rename_i hmore
      simp only [Bool.or_eq_true, decide_eq_true_eq, Bool.not_eq_true', not_or,
        Bool.not_eq_false] at hmore
      have hlength := (exposedItem_comma hmore.2).length_le
      exact (hitem.trans ((Writes.bump (Cursor.sees_iff.mp hmore.2)).trans (ih (by omega)))).mono
        (separated_le _)

theorem makes_exposingList (hopen : c.sees .lParen = true) :
    Makes 1 c .exposingList (exposingList c) := by
  refine makes_spelt fun c₀ hahead _ => ?_
  have hkind := Cursor.sees_iff.mp hopen
  have hbump : Parses 1 c₀ 1 c₀.bump := .first hahead hkind (by decide)
  have hword : Writes c₀ (one .lParen) c₀.bump := .bump ((Cursor.kind?_congr hahead).trans hkind)
  rw [Cursor.expectThen, if_pos (by rwa [Cursor.sees_congr hahead])]
  dsimp only
  split
  · rename_i hdots
    have hdots := Cursor.sees_iff.mp hdots
    refine ⟨(((hbump.bump hdots (by decide)).weaken (Nat.le_succ _)).mono
      one_le_kstar).expect (by decide), .of_writes rfl ?_⟩
    exact (hword.trans ((Writes.bump hdots).mono le_self_add)).trans (.expect _ _)
  · refine ⟨(hbump.one_trans (parses_exposedItems _ (Nat.lt_succ_self _))).expect (by decide),
      .of_writes rfl ?_⟩
    exact (hword.trans ((writes_exposedItems _ (Nat.lt_succ_self _)).mono le_add_self)).trans
      (.expect _ _)

/-- A list of exposed items is asked for, and none begins. -/
def Misses (c c' : Cursor) : Prop :=
  Emits c (c.trivia.map PlacedToken.leaf ++ [Tree.noItems]) c' ∧ c.errors.length < c'.errors.length

theorem misses_exposingList (h : c.sees .lParen = false) : Misses c (exposingList c) := by
  let c₀ := c.skipTrivia.startNode .exposingList
  have hrule : (c₀.expectThen .lParen fun c =>
      (if c.sees .dotDot then c.bump else exposedItems (c.rest.length + 1) c).expect .rParen) =
      c₀.error (.expectedToken .lParen) := by
    have hahead : c₀.ahead = c.ahead := c.ahead_skipTrivia
    rw [Cursor.expectThen, Cursor.sees_congr hahead, h]
    rfl
  constructor
  · rw [exposingList, Cursor.node, hrule]
    exact .node ((Emits.refl _).error _)
  · rw [exposingList, Cursor.node, hrule, ← errors_skipTrivia c]
    exact Nat.lt_succ_self _

/-- What is inside a header or an import, whose list of exposed items may be missing. -/
def ParsesHeader (least : Nat) (c : Cursor) (shape : RegularExpression Kind) (c' : Cursor) : Prop :=
  Parses least c shape c' ∨ ∃ c₁ shape₁, Parses least c shape₁ c₁ ∧ Misses c₁ c'

theorem Parses.exposing {least : Nat} {shape : RegularExpression Kind}
    (h : Parses least c shape c') (hsees : c'.sees .exposingKw = true) :
    ParsesHeader least c (shape * one .exposingList) (exposingList c'.bump) := by
  have hkeyword := h.bump (Cursor.sees_iff.mp hsees) (by decide)
  by_cases hopen : c'.bump.sees .lParen = true
  · exact .inl ((hkeyword.trans (makes_exposingList hopen).parses).weaken (by omega))
  · exact .inr ⟨_, shape, hkeyword.weaken (Nat.le_succ _),
      misses_exposingList (by simpa using hopen)⟩

theorem writes_exposingList (c : Cursor) : Writes c (one .exposingList) (exposingList c) := by
  by_cases hopen : c.sees .lParen = true
  · exact (makes_exposingList hopen).writes rfl
  · exact .of_emits (misses_exposingList (by simpa using hopen)).1 rfl

theorem makes_header {least : Nat} {kind : Kind} {rule : Rule}
    (hkind : kind ∈ [.moduleDeclaration, .importClause])
    (hrule : ∀ c₀ : Cursor, c₀.ahead = c.ahead → ParsesHeader least c₀ (production kind) (rule c₀))
    (hspells : Spells kind (c.skipTrivia.startNode kind) (rule (c.skipTrivia.startNode kind)))
    (hpos : 0 < least) : Makes least c kind (c.node kind rule) := by
  obtain h | ⟨c₁, shape, ⟨trees, hemits, hlength, hfills, -⟩, hmisses, herrors⟩ :=
    hrule (c.skipTrivia.startNode kind) c.ahead_skipTrivia
  · exact makes_finishNode h hpos hspells
  have hall := hemits.trans hmisses
  rw [← List.append_assoc] at hall
  have htoken : (c.skipTrivia.startNode kind).ahead = (c.skipTrivia.startNode kind).rest :=
    c.ahead_skipTrivia.trans c.rest_skipTrivia.symm
  refine ⟨_, hall.node, ?_, ?_, fun hsame => ?_⟩
  · have hlength' := hmisses.length_le
    have hlength'' := (Emits.skipTrivia c).length_le
    exact Nat.le_trans (Nat.add_le_add_right hlength' _) (Nat.le_trans hlength hlength'')
  · have hfront := hfills.append (.leaves c₁.trivia)
    have hbegins := hemits.begins htoken (hfills.significant hpos)
    exact .header hkind (hbegins.append _) hfront.filled
  · have hle := hemits.errors.length_le
    have hsame' : (rule (c.skipTrivia.startNode kind)).errors = c.errors := hsame
    rw [hsame', ← errors_skipTrivia c] at herrors
    exact absurd (Nat.lt_of_le_of_lt hle herrors) (Nat.lt_irrefl _)

theorem makes_moduleDeclaration (hkind : c.kind? = some .moduleKw ∨ c.kind? = some .portKw) :
    Makes 1 c .moduleDeclaration (moduleDeclaration c) := by
  refine makes_header (by decide) (fun c₀ hahead => ?_) (.of_free rfl _ _) Nat.one_pos
  have hkeywords : Parses 1 c₀ 1 ((c₀.accept .portKw).expect .moduleKw) := by
    obtain hmodule | hport := hkind
    · have hnot : c₀.sees .portKw = false := by
        rw [Cursor.sees_congr hahead, Cursor.sees, hmodule]
        rfl
      have hsees : c₀.sees .moduleKw = true :=
        Cursor.sees_iff.mpr ((Cursor.kind?_congr hahead).trans hmodule)
      rw [Cursor.accept, hnot, Cursor.expect]
      simp only [Bool.false_eq_true, if_false, if_pos hsees]
      exact .first hahead hmodule (by decide)
    · have hsees : c₀.sees .portKw = true :=
        Cursor.sees_iff.mpr ((Cursor.kind?_congr hahead).trans hport)
      rw [Cursor.accept, if_pos hsees]
      exact (Parses.first hahead hport (by decide)).expect (by decide)
  have hname := hkeywords.one_trans (parses_upperCaseName_or_error _)
  unfold Cursor.expectThen
  split
  · exact hname.exposing ‹_›
  · exact .inl (hname.error _)

theorem makes_asClause (hkind : c.kind? = some .asKw) : Makes 1 c .asClause (asClause c) := by
  refine makes_spelt fun c₀ hahead _ => ⟨?_, .of_writes rfl ?_⟩
  · exact (Parses.first hahead hkind (by decide)).expect (by decide)
  · exact (Writes.bump ((Cursor.kind?_congr hahead).trans hkind)).trans (.expect _ _)

theorem writes_importClause (c : Cursor) :
    Writes c (one .importKw * one .upperCaseQid * atMostOne .asClause *
        (1 + one .exposingKw * one .exposingList))
      (let c := upperCaseName (c.expect .importKw)
       let c := if c.sees .asKw then asClause c else c
       if c.sees .exposingKw then exposingList c.bump else c) := by
  have has (c : Cursor) :
      Writes c (atMostOne .asClause) (if c.sees .asKw then asClause c else c) := by
    split
    · exact ((makes_asClause (Cursor.sees_iff.mp ‹_›)).writes rfl).mono le_add_self
    · exact (Writes.refl c).mono le_self_add
  have hexposing (c : Cursor) : Writes c (1 + one .exposingKw * one .exposingList)
      (if c.sees .exposingKw then exposingList c.bump else c) := by
    split
    · exact ((Writes.bump (Cursor.sees_iff.mp ‹_›)).trans (writes_exposingList _)).mono le_add_self
    · exact (Writes.refl c).mono le_self_add
  exact (((Writes.expect c _).trans (writes_upperCaseName _)).trans (has _)).trans (hexposing _)

theorem makes_importClause (hkind : c.kind? = some .importKw) :
    Makes 1 c .importClause (importClause c) := by
  refine makes_header (by decide) (fun c₀ hahead => ?_) (.of_writes rfl (writes_importClause _))
    Nat.one_pos
  have hkeyword : Parses 1 c₀ 1 (c₀.expect .importKw) := by
    rw [Cursor.expect, if_pos (Cursor.sees_iff.mpr ((Cursor.kind?_congr hahead).trans hkind))]
    exact .first hahead hkind (by decide)
  have hname := hkeyword.one_trans (parses_upperCaseName_or_error _)
  have has (c₁ : Cursor) :
      Parses 0 c₁ (atMostOne .asClause) (if c₁.sees .asKw then asClause c₁ else c₁) := by
    split
    · rename_i hsees
      exact ((makes_asClause (Cursor.sees_iff.mp hsees)).parses.weaken (Nat.zero_le 1)).mono
        le_add_self
    · exact (Parses.refl c₁).mono le_self_add
  have hexposing (c₁ : Cursor)
      (hfront : Parses 1 c₀ (one .upperCaseQid * atMostOne .asClause) c₁) :
      ParsesHeader 1 c₀ (production .importClause)
        (if c₁.sees .exposingKw then exposingList c₁.bump else c₁) := by
    split
    · rename_i hsees
      exact (hfront.exposing hsees).imp_left fun h => h.mono (mul_le_mul_right le_add_self _)
    · exact .inl (hfront.mono (le_mul_of_one_le_right' le_self_add))
  exact hexposing _ (hname.trans (has _))

/-! ## Types and ports -/

theorem makes_portSignature (floor : Nat) (hkind : c.kind? = some .portKw) :
    Makes 1 c .portSignature (portSignature floor c) := by
  refine makes_node rfl fun c₀ hahead _ => ?_
  have hkeyword : Parses 1 c₀ 1 c₀.bump := .first hahead hkind (by decide)
  exact ((hkeyword.expect (by decide)).expect (by decide)).one_trans (parses_type floor _)

theorem parses_typeHead (c : Cursor) : Parses 0 c 1 (typeHead c) := by
  have hname : Parses 0 c 1 (c.expect .upperIdent) := (Parses.refl c).expect (by decide)
  have hvariables : Parses 0 (c.expect .upperIdent) (star 1) (typeHead c) :=
    .repeatWhile_star fun c' _ hmore =>
      (Parses.refl c').bump (Cursor.sees_iff.mp hmore) (by decide)
  exact (hname.one_trans hvariables).mono kstar_one.le

theorem parses_unionVariant (floor : Nat) (c : Cursor) :
    Parses 0 c (one .unionVariant) (unionVariant floor c) := by
  unfold unionVariant
  split
  · rename_i hname
    refine (Parses.node rfl fun c₀ hahead _ => ?_).weaken (Nat.zero_le 1)
    have hbump : Parses 1 c₀ 1 c₀.bump := .first hahead (Cursor.sees_iff.mp hname) (by decide)
    have htype : ParsesBelow c₀.bump.rest.length (Grammar.type floor) Production.type :=
      fun c' _ => parses_type floor c'
    exact hbump.one_trans (.repeatWhile_star fun _ hle hmore =>
      parses_furtherTypeArgument htype hle hmore)
  · exact (Parses.refl c).error _

theorem parses_unionVariants (floor : Nat) (c : Cursor) :
    Parses 0 c (atLeastOne (one .unionVariant)) (unionVariants floor c) := by
  refine (parses_unionVariant floor c).trans (.repeatWhile_star fun c' _ hmore => ?_)
  have hpipe : Parses 1 c' 1 c'.bump := (Parses.refl c').bump
    (Cursor.sees_iff.mp (Bool.and_eq_true_iff.mp hmore).1) (by decide)
  exact hpipe.one_trans (parses_unionVariant floor _)

theorem makes_typeDeclaration (floor : Nat) (hkind : c.kind? = some .typeKw) :
    Makes 1 c .typeDeclaration (typeDeclaration floor c) := by
  refine makes_node rfl fun c₀ hahead _ => ?_
  have hkeyword : Parses 1 c₀ 1 c₀.bump := .first hahead hkind (by decide)
  exact ((hkeyword.one_trans (parses_typeHead _)).expectThen (by decide) fun _ =>
    parses_unionVariants floor _).mono (one_mul _).le

theorem makes_typeAliasDeclaration (floor : Nat) (hkind : c.kind? = some .typeKw)
    (hsecond : c.secondKind? = some .aliasKw) :
    Makes 2 c .typeAliasDeclaration (typeAliasDeclaration floor c) := by
  refine makes_node rfl fun c₀ hahead _ => ?_
  rw [← Cursor.secondKind?_congr hahead, ← Cursor.kind?_bump] at hsecond
  have hkeywords : Parses 2 c₀ 1 c₀.bump.bump :=
    (Parses.first hahead hkind (by decide)).bump hsecond
      (by decide)
  exact ((hkeywords.one_trans (parses_typeHead _)).expectThen (by decide) fun _ =>
    parses_type floor _).mono (one_mul _).le

/-! ## Items and recovery -/

/-- On the way from `c` to `c'` tokens are consumed and an error is recorded. -/
def Fails (c c' : Cursor) : Prop :=
  ∃ trees, Emits c trees c' ∧ Fills 1 trees ∧ c'.rest.length < c.rest.length ∧
    c.errors.length < c'.errors.length

theorem emits_bump (hnext : c.atEnd = false) :
    (∃ trees, Emits c trees c.bump ∧ Fills 1 trees) ∧ c.bump.rest.length < c.rest.length := by
  obtain ⟨t, tokens, hahead⟩ : ∃ t tokens, c.ahead = t :: tokens := by
    cases hahead : c.ahead with
    | nil => simp [Cursor.atEnd, Cursor.next?, hahead] at hnext
    | cons t tokens => exact ⟨t, tokens, rfl⟩
  refine ⟨⟨_, .bump hahead, ?_⟩, ?_⟩
  · exact (Fills.leaves _).append (.leaf (Cursor.isTrivia_of_ahead hahead))
  rw [Cursor.rest_bump, ← c.trivia_append_ahead, hahead]
  simp only [List.tail_cons, List.length_append, List.length_cons]
  omega

theorem emits_repeatWhile_bump {more : Cursor → Bool}
    (hmore : ∀ c, more c = true → c.atEnd = false) (c : Cursor) :
    ∃ trees, Emits c trees (c.repeatWhile more Cursor.bump) ∧ Fills 0 trees := by
  refine (Cursor.repeatWhile_induction (P := fun c' => ∃ trees, Emits c trees c' ∧ Fills 0 trees)
    ?_ c ⟨[], .refl c, .nil⟩).1
  rintro c' ⟨trees, htrees, hfills⟩ hnext
  obtain ⟨⟨further, hfurther, hfills'⟩, hlt⟩ := emits_bump (hmore c' hnext)
  exact ⟨⟨_, htrees.trans hfurther, (hfills.append hfills').weaken (Nat.zero_le _)⟩, hlt⟩

theorem fails_recover (cause : SyntaxError.Cause) (hnext : c.atEnd = false) :
    Fails c (recover cause c) := by
  -- the error is recorded before the node is started, so nothing in the node has to conform
  let c₀ := (c.error cause).skipTrivia.startNode .error
  have hnext₀ : c₀.atEnd = false :=
    (Cursor.atEnd_congr (c.error cause).ahead_skipTrivia).trans hnext
  have hlength₀ : c₀.rest.length ≤ c.rest.length := (Emits.skipTrivia (c.error cause)).length_le
  obtain ⟨⟨first, hfirst, hfills⟩, hlt⟩ := emits_bump hnext₀
  have hcolumn (c' : Cursor) (hmore : c'.column?.any (0 < ·) = true) : c'.atEnd = false := by
    cases hnone : c'.next? with
    | none => simp [Cursor.column?, hnone] at hmore
    | some t => simp [Cursor.atEnd, hnone]
  obtain ⟨others, hothers, hfills'⟩ := emits_repeatWhile_bump hcolumn c₀.bump
  have hnode : Emits (c.error cause) _ (recover cause c) := (hfirst.trans hothers).node
  refine ⟨_, ((Emits.refl c).error cause).trans hnode, ?_, ?_, ?_⟩
  · have hfills := hfills.append hfills'
    have htoken : c₀.ahead = c₀.rest :=
      (c.error cause).ahead_skipTrivia.trans (c.error cause).rest_skipTrivia.symm
    have hbegins := (hfirst.trans hothers).begins htoken (hfills.significant Nat.one_pos)
    exact (Fills.leaves _).append (hfills.node hbegins)
  · exact Nat.lt_of_le_of_lt hothers.length_le (Nat.lt_of_lt_of_le hlt hlength₀)
  · exact Nat.lt_of_lt_of_le (Nat.lt_succ_self _) hnode.errors.length_le

theorem Makes.weaken {least : Nat} {kind : Kind} (h : Makes least c kind c') :
    Makes 0 c kind c' := by
  obtain ⟨children, hemits, hlength, hfilled, hconforms⟩ := h
  exact ⟨children, hemits, Nat.le_trans (Nat.le_add_right _ _) hlength, hfilled, hconforms⟩

/-- An item of the file, or an error and some progress. -/
def ReadsItem (least : Nat) (c c' : Cursor) : Prop :=
  (∃ kind ∈ topLevelKinds, Makes least c kind c') ∨ Fails c c'

theorem readsItem_topLevelItem (hnext : c.atEnd = false) : ReadsItem 0 c (topLevelItem c) := by
  unfold topLevelItem
  split
  case h_1 hkind =>
    exact .inl ⟨_, by decide, (makes_moduleDeclaration (.inl hkind)).weaken⟩
  case h_2 hkind _ =>
    exact .inl ⟨_, by decide, (makes_moduleDeclaration (.inr hkind)).weaken⟩
  case h_3 hkind _ => exact .inl ⟨_, by decide, (makes_portSignature 0 hkind).weaken⟩
  case h_4 hkind => exact .inl ⟨_, by decide, (makes_importClause hkind).weaken⟩
  case h_5 hkind hsecond =>
    exact .inl ⟨_, by decide, (makes_typeAliasDeclaration 0 hkind hsecond).weaken⟩
  case h_6 hkind _ => exact .inl ⟨_, by decide, (makes_typeDeclaration 0 hkind).weaken⟩
  case h_7 hkind _ => exact .inl ⟨_, by decide, (makes_typeSignature 0 hkind).weaken⟩
  case h_8 hkind _ =>
    have hat : atPattern c = true := by simp [atPattern, Cursor.seesAny, hkind]
    have hexpr : ParsesBelow c.rest.length (expr 0) Production.expression :=
      fun c' _ => parses_expr 0 c'
    exact .inl ⟨_, by decide, (makes_valueDeclaration hexpr 0 (Nat.le_refl _) hat).weaken⟩
  case h_9 => exact .inr (fails_recover _ hnext)

theorem ReadsItem.emits {least : Nat} (h : ReadsItem least c c') :
    ∃ trees, Emits c trees c' ∧ Fills 0 trees := by
  obtain ⟨_, _, _, hemits, _, hfilled, _⟩ | ⟨_, hemits, hfills, _⟩ := h
  · have hnode : Fills 0 [.node _ _] := ⟨List.forall_mem_singleton.mpr hfilled, by simp⟩
    exact ⟨_, hemits, (Fills.leaves _).append hnode⟩
  · exact ⟨_, hemits, hfills.weaken (Nat.zero_le _)⟩

/-- A step through the file consumes a token. An item that consumed none would have left the cursor
where it was, and then `recover` takes at least the next token. -/
theorem readsItem_fileItem (hnext : c.atEnd = false) :
    ReadsItem 1 c (fileItem c) ∧
      ((fileItem c).errors = c.errors → c.column? = some 0) := by
  unfold fileItem
  split
  · rename_i hcolumn
    refine ⟨?_, fun _ => by simpa using hcolumn⟩
    have hitem := readsItem_topLevelItem hnext
    obtain ⟨trees, hemits, hfills⟩ := hitem.emits
    dsimp only
    split
    · rename_i hstuck
      simp only [Bool.and_eq_true, decide_eq_true_eq, Bool.not_eq_true'] at hstuck
      obtain ⟨trees', hemits', hfills', hlt, herrors⟩ := fails_recover (.stuckOnToken _) hstuck.2
      refine .inr ⟨_, hemits.trans hemits', (hfills.append hfills').weaken (Nat.zero_add 1).ge,
        by have := hemits.length_le; omega, ?_⟩
      exact Nat.lt_of_le_of_lt hemits.errors.length_le herrors
    · rename_i hmoved
      refine hitem.imp ?_ id
      rintro ⟨kind, hkind, children, hnode, hlength, hrest⟩
      refine ⟨kind, hkind, children, hnode, ?_, hrest⟩
      by_contra hstays
      have hsame : (topLevelItem c).rest = c.rest := by
        obtain ⟨consumed, hrest, -⟩ := hnode.leaves
        exact (List.IsSuffix.eq_of_length_le ⟨consumed, hrest.symm⟩ (by omega))
      refine hmoved ?_
      rw [hsame, Cursor.atEnd_congr (Cursor.ahead_congr hsame), hnext]
      simp
  · obtain ⟨trees, hemits, hfills, hlt, herrors⟩ := fails_recover .misplacedDeclaration hnext
    refine ⟨.inr ⟨trees, hemits, hfills, hlt, herrors⟩, fun hsame => ?_⟩
    rw [hsame] at herrors
    exact absurd herrors (Nat.lt_irrefl _)

end ElmLint.Syntax
