import ElmLint.Proofs.Syntax.WholeFile

/-!
# What a rule emits, and where

`Brings good c c'` says that the trees emitted on the way from `c` to `c'` are good in the column
that they start in, and `Yields ok c c'` that each of them is `ok` in its own column. The lemmas
follow how rules are put together.
-/

namespace ElmLint.Syntax

variable {c c' c'' : Cursor} {kind : Kind} {column floor : Nat} {trees : List Tree} {rule : Rule}

-- ---------------------------------------------------------------------------
-- Columns at a cursor
-- ---------------------------------------------------------------------------

theorem columnAfter_ne_zero (column : Nat) {text : List Char} (hne : text ≠ [])
    (h : '\n' ∉ text) : columnAfter column text ≠ 0 := by
  obtain ⟨front, last, rfl⟩ := List.eq_nil_or_concat' text |>.resolve_left hne
  have hlast : last ≠ '\n' := fun heq => h (by simp [heq])
  rw [Tree.columnAfter_append]
  simp [columnAfter, hlast]

/-- The tokens left stand in their columns, the first in `column`, and names and dots end in the
line where they start. -/
structure Cursor.Stands (c : Cursor) (column : Nat) : Prop where
  placed : ∃ tokens, c.rest = placeTokens column tokens
  unbroken : ∀ t ∈ c.rest, t.kind ∈ [.lowerIdent, .upperIdent, .dot] →
    ∀ column, columnAfter column t.text.toList ≠ 0

theorem placeTokens_eq_append {tokens : List Token} {consumed more : List PlacedToken}
    (h : placeTokens column tokens = consumed ++ more) :
    ∃ tokens',
      more = placeTokens (columnAfter column (consumed.flatMap (·.text.toList))) tokens' := by
  induction consumed generalizing column tokens with
  | nil => exact ⟨tokens, h.symm⟩
  | cons t consumed ih =>
    cases tokens with
    | nil => cases h
    | cons token tokens =>
      rw [placeTokens, List.cons_append, List.cons.injEq] at h
      obtain ⟨rfl, h⟩ := h
      rw [List.flatMap_cons, Tree.columnAfter_append]
      exact ih h

theorem Cursor.Stands.emits (h : c.Stands column) (hemits : Emits c trees c') :
    c'.Stands (columnAfter column (Tree.textOf trees)) := by
  obtain ⟨consumed, hrest, hleaves⟩ := hemits.leaves
  obtain ⟨tokens, htokens⟩ := h.placed
  rw [Tree.textOf_of_leaves hleaves]
  refine ⟨placeTokens_eq_append (htokens.symm.trans hrest), fun t ht => h.unbroken t ?_⟩
  rw [hrest]
  exact List.mem_append_right _ ht

/-- The first token left stands where the cursor does. -/
theorem Cursor.Stands.column_eq (h : c.Stands column) {t : PlacedToken} {more : List PlacedToken}
    (hrest : c.rest = t :: more) : t.column = column := by
  obtain ⟨tokens, htokens⟩ := h.placed
  rw [hrest, ← List.nil_append (t :: more)] at htokens
  exact column_of_placeTokens htokens.symm

theorem Cursor.Stands.of_rest (h : c.Stands column) (hrest : c'.rest = c.rest) :
    c'.Stands column := ⟨hrest ▸ h.placed, hrest ▸ h.unbroken⟩

theorem Cursor.not_atLayoutEnd (hcolumn : c.column? = some column) (hlt : floor < column) :
    c.atLayoutEnd floor = false := by
  simpa [atLayoutEnd, hcolumn] using hlt

theorem stands_start (text : String) : (Cursor.start (tokenize text)).Stands 0 := by
  refine ⟨⟨tokenize text, rfl⟩, fun t ht hword column => ?_⟩
  have hmem : (t.kind, t.text) ∈ (tokenize text).map fun token => (token.kind, token.text) := by
    rw [← map_placeTokens 0]
    exact List.mem_map_of_mem ht
  obtain ⟨token, htoken, heq⟩ := List.mem_map.mp hmem
  obtain ⟨c, cs, hkind, htext⟩ := exists_lexeme_of_mem_tokenize htoken
  obtain ⟨hkind', htext'⟩ := Prod.mk.inj heq
  rw [← hkind', hkind] at hword
  rw [← htext', htext]
  refine columnAfter_ne_zero column (text_lexeme_ne_nil c cs) ?_
  refine (lineFeed_not_mem_lexeme c cs).resolve_left fun h => ?_
  simp only [List.mem_cons, List.not_mem_nil, or_false] at hword
  obtain hword | hword | hword := hword <;> rw [hword] at h <;> exact absurd h (by decide)

namespace Tree

variable {ok ok' : Nat → Tree → Prop}

theorem mem_columnsFrom (column : Nat) (front back : List Tree) (tree : Tree) :
    (tree, columnAfter column (textOf front)) ∈ columnsFrom column (front ++ tree :: back) := by
  rw [columnsFrom_append]
  exact List.mem_append_right _ List.mem_cons_self

theorem exists_of_mem_columnsFrom {item : Tree × Nat} (h : item ∈ columnsFrom column trees) :
    ∃ front back, trees = front ++ item.1 :: back ∧ item.2 = columnAfter column (textOf front) := by
  induction trees generalizing column with
  | nil => cases h
  | cons tree trees ih =>
    rw [columnsFrom, List.mem_cons] at h
    obtain rfl | h := h
    · exact ⟨[], trees, rfl, rfl⟩
    · obtain ⟨front, back, rfl, hcolumn⟩ := ih h
      refine ⟨tree :: front, back, rfl, ?_⟩
      rw [hcolumn, ← columnAfter_append, toList_text, ← textOf_append]
      rfl

theorem mem_of_mem_columnsFrom {item : Tree × Nat} (h : item ∈ columnsFrom column trees) :
    item.1 ∈ trees := by
  obtain ⟨front, back, rfl, -⟩ := exists_of_mem_columnsFrom h
  exact List.mem_append_right _ List.mem_cons_self

/-- Each of the trees is `ok` in its column, where the first starts in `column`. -/
def Each (ok : Nat → Tree → Prop) (column : Nat) (trees : List Tree) : Prop :=
  ∀ item ∈ columnsFrom column trees, ok item.2 item.1

theorem each_nil (ok : Nat → Tree → Prop) (column : Nat) : Each ok column [] :=
  fun _ h => absurd h List.not_mem_nil

theorem each_singleton {tree : Tree} : Each ok column [tree] ↔ ok column tree :=
  List.forall_mem_singleton

theorem each_append (first second : List Tree) :
    Each ok column (first ++ second) ↔
      Each ok column first ∧ Each ok (columnAfter column (textOf first)) second := by
  rw [Each, columnsFrom_append]
  exact List.forall_mem_append

theorem Each.of_mem (h : Each ok column trees) {tree : Tree} (htree : tree ∈ trees) :
    ∃ column', ok column' tree := by
  obtain ⟨front, back, rfl⟩ := List.append_of_mem htree
  exact ⟨_, h _ (mem_columnsFrom column front back tree)⟩

theorem Each.mono (h : Each ok column trees)
    (hle : ∀ column tree, ok column tree → ok' column tree) : Each ok' column trees := fun item hitem => hle _ _ (h item hitem)

end Tree

open Grammar (topLevelItem recover fileItem)
open Tree (textOf Each)

-- ---------------------------------------------------------------------------
-- Ways
-- ---------------------------------------------------------------------------

/-- On the way trees are emitted that are good, if it is not cut off. -/
def Brings (good : Nat → List Tree → Prop) (c c' : Cursor) : Prop :=
  c'.isCutOff = false → ∃ trees, Emits c trees c' ∧ ∀ column, c.Stands column → good column trees

namespace Brings

variable {good good' good'' : Nat → List Tree → Prop}

theorem cutOff (good : Nat → List Tree → Prop) (c : Cursor) : Brings good c c'.cutOff :=
  fun huncut => absurd huncut Bool.noConfusion

theorem mono (h : Brings good c c') (hle : ∀ column trees, good column trees → good' column trees) :
    Brings good' c c' := by
  intro huncut
  obtain ⟨trees, hemits, hgood⟩ := h huncut
  exact ⟨trees, hemits, fun column hstands => hle _ _ (hgood column hstands)⟩

theorem error (cause : SyntaxError.Cause) (h : Brings good c c') :
    Brings good c (c'.error cause) := by
  intro huncut
  obtain ⟨trees, hemits, hgood⟩ := h huncut
  exact ⟨trees, hemits.error cause, hgood⟩

theorem behindError {cause : SyntaxError.Cause} (h : Brings good (c.error cause) c') :
    Brings good c c' := by
  intro huncut
  obtain ⟨trees, hemits, hgood⟩ := h huncut
  exact ⟨trees, ((Emits.refl c).error cause).trans hemits, fun column hstands =>
    hgood column (hstands.of_rest rfl)⟩

theorem trans (h : Brings good c c') (h' : Brings good' c' c'')
    (hle : ∀ column first second, good column first →
      good' (columnAfter column (textOf first)) second → good'' column (first ++ second)) :
    Brings good'' c c'' := by
  intro huncut
  obtain ⟨second, hemits', hgood'⟩ := h' huncut
  obtain ⟨first, hemits, hgood⟩ := h (hemits'.isCutOff.symm.trans huncut)
  exact ⟨first ++ second, hemits.trans hemits', fun column hstands =>
    hle _ _ _ (hgood column hstands) (hgood' _ (hstands.emits hemits))⟩

/-- From a token on, the trees start in the column of this token. -/
theorem atNext (h : Brings good c c') (htoken : c.ahead = c.rest) :
    Brings (fun column trees => good column trees ∧ ∀ next ∈ c.column?, next = column) c c' := by
  intro huncut
  obtain ⟨trees, hemits, hgood⟩ := h huncut
  refine ⟨trees, hemits, fun column hstands => ⟨hgood column hstands, fun next hnext => ?_⟩⟩
  obtain ⟨t, ht, rfl⟩ := Option.map_eq_some_iff.mp (Option.mem_def.mp hnext)
  obtain ⟨more, hrest⟩ := List.head?_eq_some_iff.mp ht
  exact hstands.column_eq (htoken.symm.trans hrest)

end Brings

/-- Each tree emitted on the way is `ok`. -/
def Yields (ok : Nat → Tree → Prop) : Cursor → Cursor → Prop := Brings (Each ok)

/-- White space and comments are `ok`. -/
class AllowsTrivia (ok : Nat → Tree → Prop) : Prop where
  trivia (column : Nat) (kind : Kind) (text : String) (h : kind.isTrivia = true) :
    ok column (.token kind text)

/-- All tokens are `ok`. -/
class AllowsTokens (ok : Nat → Tree → Prop) : Prop where
  token (column : Nat) (kind : Kind) (text : String) : ok column (.token kind text)

instance (ok : Nat → Tree → Prop) [AllowsTokens ok] : AllowsTrivia ok :=
  ⟨fun column kind text _ => AllowsTokens.token column kind text⟩

namespace Yields

variable {ok ok' : Nat → Tree → Prop}

theorem refl (ok : Nat → Tree → Prop) (c : Cursor) : Yields ok c c :=
  fun _ => ⟨[], .refl c, fun column _ => Tree.each_nil ok column⟩

theorem cutOff (ok : Nat → Tree → Prop) (c : Cursor) : Yields ok c c'.cutOff := Brings.cutOff _ c

theorem mono (h : Yields ok c c') (hle : ∀ column tree, ok column tree → ok' column tree) :
    Yields ok' c c' := Brings.mono h fun _ _ heach => heach.mono hle

theorem error (cause : SyntaxError.Cause) (h : Yields ok c c') : Yields ok c (c'.error cause) :=
  Brings.error cause h

theorem trans (h : Yields ok c c') (h' : Yields ok c' c'') : Yields ok c c'' :=
  Brings.trans h h' fun _ first second hfirst hsecond =>
    (Tree.each_append first second).mpr ⟨hfirst, hsecond⟩

theorem repeatWhile {more : Cursor → Bool}
    (round : ∀ c' : Cursor, more c' = true → Yields ok c' (rule c')) :
    Yields ok c (c.repeatWhile more rule) :=
  Cursor.repeatWhile_keeps (fun _ _ => cutOff ok c) (fun c' h hmore => h.trans (round c' hmore))
    (refl ok c)

/-! ## White space, comments, and nodes behind them -/

section Trivia

variable [AllowsTrivia ok]

theorem each_trivia (column : Nat) (c : Cursor) :
    Each ok column (c.trivia.map PlacedToken.leaf) := by
  have htrivia : ∀ t ∈ c.trivia, t.kind.isTrivia = true :=
    List.all_eq_true.mp List.all_takeWhile
  intro item hitem
  obtain ⟨t, ht, htree⟩ := List.mem_map.mp (Tree.mem_of_mem_columnsFrom hitem)
  rw [← htree]
  exact AllowsTrivia.trivia _ _ _ (htrivia t ht)

theorem trivia (c : Cursor) : Yields ok c c.skipTrivia :=
  fun _ => ⟨_, .skipTrivia c, fun column _ => each_trivia column c⟩

/-- A token, if it is `ok` wherever it stands. -/
theorem bumpOk (h : ∀ t ∈ c.next?, ∀ column, ok column t.leaf) : Yields ok c c.bump := by
  cases hahead : c.ahead with
  | nil =>
    rw [Cursor.bump_of_ahead_nil hahead]
    exact trivia c
  | cons t more =>
    refine fun _ => ⟨_, .bump hahead, fun column _ => ?_⟩
    refine (Tree.each_append _ _).mpr ⟨each_trivia column c, Tree.each_singleton.mpr ?_⟩
    exact h t (by simp [Cursor.next?, hahead]) _

theorem skipTrivia (h : Yields ok c.skipTrivia c') : Yields ok c c' := (trivia c).trans h

theorem fromHere {rule : Nat → Rule}
    (hrule : ∀ c₀ : Cursor, c₀.ahead = c.ahead → c₀.ahead = c₀.rest →
      Yields ok c₀ (rule c₀.builder.checkpoint c₀)) :
    Yields ok c (c.fromHere rule) :=
  skipTrivia (hrule c.skipTrivia c.ahead_skipTrivia
    (c.ahead_skipTrivia.trans c.rest_skipTrivia.symm))

theorem node (hrule : ∀ c₀ : Cursor, c₀.ahead = c.ahead → c₀.ahead = c₀.rest →
      Brings (fun column trees => ok column (.node kind trees)) c₀ (rule c₀)) :
    Yields ok c (c.node kind rule) := by
  intro huncut
  obtain ⟨trees, hemits, hnode⟩ := hrule (c.skipTrivia.startNode kind) c.ahead_skipTrivia
    (c.ahead_skipTrivia.trans c.rest_skipTrivia.symm) huncut
  refine ⟨_, .node hemits, fun column hstands => ?_⟩
  refine (Tree.each_append _ _).mpr ⟨each_trivia column c, Tree.each_singleton.mpr ?_⟩
  exact hnode _ ((hstands.emits (.skipTrivia c)).of_rest rfl)

end Trivia

/-- A node around a way from where its checkpoint was taken. -/
theorem wrap {good good' : Nat → List Tree → Prop} (h : Brings good c c')
    (hrule : ∀ c₀ : Cursor, c₀.rest = c'.rest → Brings good' c₀ (rule c₀))
    (hle : ∀ column first second, good column first →
      good' (columnAfter column (textOf first)) second →
        ok column (.node kind (first ++ second))) :
    Yields ok c (c'.wrap c.builder.checkpoint kind rule) := by
  intro huncut
  obtain ⟨second, hemits', hgood'⟩ :=
    hrule (c'.startNodeAt c.builder.checkpoint kind) rfl huncut
  obtain ⟨first, hemits, hgood⟩ := h (hemits'.isCutOff.symm.trans huncut)
  exact ⟨_, hemits.wrap hemits', fun column hstands => Tree.each_singleton.mpr <|
    hle _ _ _ (hgood column hstands) (hgood' _ ((hstands.emits hemits).of_rest rfl))⟩

/-! ## Tokens -/

section Tokens

variable [AllowsTokens ok]

theorem bump (c : Cursor) : Yields ok c c.bump :=
  bumpOk fun _ _ _ => AllowsTokens.token _ _ _

theorem accept (token : Kind) (c : Cursor) : Yields ok c (c.accept token) := by
  unfold Cursor.accept
  split
  · exact bump c
  · exact refl ok c

theorem expect (token : Kind) (c : Cursor) : Yields ok c (c.expect token) := by
  unfold Cursor.expect
  split
  · exact bump c
  · exact (refl ok c).error _

theorem expectThen {token : Kind} (h : Yields ok c.bump (rule c.bump)) :
    Yields ok c (c.expectThen token rule) := by
  unfold Cursor.expectThen
  split
  · exact (bump c).trans h
  · exact (refl ok c).error _

theorem commaSeparated {item : Rule} (hitem : ∀ c : Cursor, Yields ok c (item c)) (c : Cursor) :
    Yields ok c (c.commaSeparated item) :=
  (hitem c).trans (.repeatWhile fun c' _ => (bump c').trans (hitem c'.bump))

/-- Items up to a closing bracket, where there may be none. -/
theorem items {item : Rule} {closing : Kind} (hitem : ∀ c : Cursor, Yields ok c (item c))
    (c : Cursor) :
    Yields ok c ((if c.sees closing then c else c.commaSeparated item).expect closing) := by
  refine trans ?_ (expect closing _)
  split
  · exact refl ok c
  · exact commaSeparated hitem c

end Tokens

/-! ## The file -/

/-- The items of a file, with white space and comments between them and behind the last. -/
theorem fileItems [AllowsTrivia ok]
    (hitem : ∀ c : Cursor, c.column? = some 0 → Yields ok c (topLevelItem c))
    (hrecover : ∀ cause (c : Cursor), Yields ok c (recover cause c)) (c : Cursor) :
    Yields ok c (c.repeatWhile (!·.atEnd) fileItem).skipTrivia := by
  refine (repeatWhile fun c' _ => ?_).trans (trivia _)
  unfold fileItem
  split
  · rename_i hcolumn
    have hitem' := hitem c' (beq_iff_eq.mp hcolumn)
    dsimp only
    split
    · exact hitem'.trans (hrecover _ _)
    · exact hitem'
  · exact hrecover _ c'

end Yields

end ElmLint.Syntax
