import ElmLint.Proofs.Syntax.Filling
import ElmLint.Proofs.Syntax.Production
import Mathlib.Algebra.Order.Kleene
import Mathlib.Order.CompletePartialOrder

/-!
# What rules derive

`Parses least c shape c'`: on the way from `c` to `c'` at least `least` tokens are consumed that are
neither white space nor comments, no node on it is empty, and unless an error is recorded on it,
what is emitted conforms, its nodes spell a word of `shape`, and it ends with such a token. So
whoever records an error may claim any shape, and may have passed over white space in vain. The
lemmas follow how rules are put together: each takes a way that ends where the next step of a rule
starts.
-/

namespace ElmLint.Syntax

open RegularExpression (star)
open Production
open scoped Computability

variable {c c' c'' : Cursor} {kind : Kind} {kinds : List Kind} {least least' bound : Nat}
  {shape shape' : RegularExpression Kind} {rule : Rule} {more : Cursor → Bool}

def Parses (least : Nat) (c : Cursor) (shape : RegularExpression Kind) (c' : Cursor) : Prop :=
  ∃ trees, Emits c trees c' ∧ c'.rest.length + least ≤ c.rest.length ∧ Fills least trees ∧
    (c'.errors = c.errors →
      (∀ tree ∈ trees, tree.Conforms) ∧ Tree.nodeKinds trees ∈ shape.matches' ∧ AreClosed trees)

/-- One node, in front of which nothing but white space and comments is consumed. -/
def Makes (least : Nat) (c : Cursor) (kind : Kind) (c' : Cursor) : Prop :=
  ∃ children, Emits c (c.trivia.map PlacedToken.leaf ++ [.node kind children]) c' ∧
    c'.rest.length + least ≤ c.rest.length ∧ (Tree.node kind children).Filled ∧
    (c'.errors = c.errors →
      (Tree.node kind children).Conforms ∧ AreClosed [.node kind children])

/-- The rule derives words of `shape` wherever less than `bound` tokens are left. -/
def ParsesBelow (bound : Nat) (rule : Rule) (shape : RegularExpression Kind) : Prop :=
  ∀ c : Cursor, c.rest.length < bound → Parses 0 c shape (rule c)

/-! ## Tokens without nodes -/

namespace PlacedToken

theorem nodeKinds_leaf (tokens : List PlacedToken) : Tree.nodeKinds (tokens.map leaf) = [] := by
  simp [Tree.nodeKinds, leaf, Tree.isNode]

theorem conforms_leaf {t : PlacedToken} (h : t.kind ≠ .error) : t.leaf.Conforms := .token _ h

theorem conforms_trivia (c : Cursor) : ∀ tree ∈ c.trivia.map leaf, tree.Conforms := by
  intro tree htree
  obtain ⟨t, ht, rfl⟩ := List.mem_map.mp htree
  have htrivia : t.kind.isTrivia = true := by simpa using List.mem_takeWhile_imp ht
  refine conforms_leaf ?_
  intro herror
  rw [herror] at htrivia
  cases htrivia

end PlacedToken

theorem Fills.leavesOf_ne_nil {trees : List Tree} (h : Fills least trees)
    (hnodes : Tree.nodeKinds trees ≠ []) : Tree.leavesOf trees ≠ [] := by
  obtain ⟨node, hnode⟩ := List.exists_mem_of_ne_nil _ (List.map_eq_nil_iff.not.mp hnodes)
  obtain ⟨hmem, hisNode⟩ := List.mem_filter.mp hnode
  have hfilled := h.filled node hmem
  cases node with
  | token => cases hisNode
  | node kind children =>
    obtain ⟨front, back, rfl⟩ := List.append_of_mem hmem
    simp [Tree.leavesOf_append, Tree.leavesOf, Tree.leaves, hfilled.significant.ne_nil]

/-! ## Shapes -/

theorem Production.exists_of_mem_oneOf {word : List Kind} (h : word ∈ (oneOf kinds).matches') :
    ∃ kind ∈ kinds, word = [kind] := by
  induction kinds with
  | nil => cases h
  | cons head kinds ih =>
    cases h with
    | inl h => exact ⟨head, List.mem_cons_self, h⟩
    | inr h =>
      obtain ⟨kind, hkind, hword⟩ := ih h
      exact ⟨kind, List.mem_cons_of_mem head hkind, hword⟩

theorem Production.oneOf_le {kinds' : List Kind} (h : kinds ⊆ kinds') :
    (oneOf kinds).matches' ≤ (oneOf kinds').matches' := by
  intro word hword
  obtain ⟨kind, hkind, rfl⟩ := exists_of_mem_oneOf hword
  exact mem_oneOf (h hkind)

/-! ## Ways -/

theorem errors_skipTrivia (c : Cursor) : c.skipTrivia.errors = c.errors := by
  rw [Cursor.skipTrivia_eq]

namespace Parses

theorem length_le (h : Parses least c shape c') : c'.rest.length + least ≤ c.rest.length := by
  obtain ⟨_, _, hlength, _⟩ := h
  exact hlength

theorem refl (c : Cursor) : Parses 0 c 1 c :=
  ⟨[], .refl c, Nat.le_refl _, .nil, fun _ => ⟨nofun, rfl, .nil⟩⟩

theorem weaken (h : Parses least c shape c') (hle : least' ≤ least) : Parses least' c shape c' := by
  obtain ⟨trees, hemits, hlength, hfills, hconforms⟩ := h
  exact ⟨trees, hemits, by omega, hfills.weaken hle, hconforms⟩

theorem mono (h : Parses least c shape c') (hle : shape.matches' ≤ shape'.matches') :
    Parses least c shape' c' := by
  obtain ⟨trees, hemits, hlength, hfills, hconforms⟩ := h
  refine ⟨trees, hemits, hlength, hfills, fun herrors => ?_⟩
  obtain ⟨htrees, hword, hclosed⟩ := hconforms herrors
  exact ⟨htrees, hle hword, hclosed⟩

theorem trans (h : Parses least c shape c') (h' : Parses least' c' shape' c'') :
    Parses (least + least') c (shape * shape') c'' := by
  obtain ⟨trees, hemits, hlength, hfills, hconforms⟩ := h
  obtain ⟨trees', hemits', hlength', hfills', hconforms'⟩ := h'
  refine ⟨trees ++ trees', hemits.trans hemits', by omega, hfills.append hfills',
    fun herrors => ?_⟩
  obtain ⟨hfirst, hsecond⟩ := hemits.errors_eq hemits' herrors
  obtain ⟨htrees, hword, hclosed⟩ := hconforms hfirst
  obtain ⟨htrees', hword', hclosed'⟩ := hconforms' hsecond
  refine ⟨List.forall_mem_append.mpr ⟨htrees, htrees'⟩, ?_, hclosed.append hclosed'⟩
  rw [Tree.nodeKinds_append]
  exact Language.append_mem_mul hword hword'

/-- On from a way without nodes. -/
theorem one_trans (h : Parses least c 1 c') (h' : Parses least' c' shape c'') :
    Parses (least + least') c shape c'' :=
  (h.trans h').mono (by rw [RegularExpression.matches'_mul, RegularExpression.matches'_epsilon,
    one_mul])

theorem trans_one (h : Parses least c shape c') (h' : Parses least' c' 1 c'') :
    Parses (least + least') c shape c'' :=
  (h.trans h').mono (by rw [RegularExpression.matches'_mul, RegularExpression.matches'_epsilon,
    mul_one])

theorem mem_oneOf (h : Parses least c (one kind) c') (hmem : kind ∈ kinds) :
    Parses least c (oneOf kinds) c' := by
  refine h.mono fun word hword => ?_
  obtain rfl : word = [kind] := hword
  exact Production.mem_oneOf hmem

theorem subset {kinds' : List Kind} (h : Parses least c (oneOf kinds) c')
    (hsubset : kinds ⊆ kinds') : Parses least c (oneOf kinds') c' :=
  h.mono (Production.oneOf_le hsubset)

/-! ## Steps -/

/-- A way that starts with white space and comments makes a node, unless it records an error. -/
theorem skipTrivia (h : Parses least c.skipTrivia (oneOf kinds) c') :
    Parses least c (oneOf kinds) c' := by
  obtain ⟨trees, hemits, hlength, hfills, hconforms⟩ := h
  refine ⟨_, (Emits.skipTrivia c).trans hemits, ?_, ?_, fun herrors => ?_⟩
  · exact Nat.le_trans hlength (Emits.skipTrivia c).length_le
  · exact ((Fills.leaves _).append hfills).weaken (Nat.zero_add least).ge
  obtain ⟨htrees, hword, hclosed⟩ := hconforms (herrors.trans (errors_skipTrivia c).symm)
  obtain ⟨kind, -, hnodes⟩ := exists_of_mem_oneOf hword
  refine ⟨List.forall_mem_append.mpr ⟨PlacedToken.conforms_trivia c, htrees⟩, ?_,
    hclosed.behind (hfills.leavesOf_ne_nil (by rw [hnodes]; exact List.cons_ne_nil _ _)) _⟩
  rwa [Tree.nodeKinds_append, PlacedToken.nodeKinds_leaf]

theorem bump (h : Parses least c shape c') (hkind : c'.kind? = some kind) (herror : kind ≠ .error) :
    Parses (least + 1) c shape c'.bump := by
  obtain ⟨t, tokens, hahead, rfl⟩ := Cursor.ahead_of_kind? hkind
  have hfills : Fills 1 (c'.trivia.map PlacedToken.leaf ++ [t.leaf]) :=
    (Fills.leaves _).append (.leaf (Cursor.isTrivia_of_ahead hahead))
  refine h.trans_one ⟨_, .bump hahead, ?_, hfills, fun _ => ⟨?_, ?_, ?_⟩⟩
  · rw [Cursor.rest_bump, ← c'.trivia_append_ahead, hahead]
    simp only [List.tail_cons, List.length_append, List.length_cons]
    omega
  · refine List.forall_mem_append.mpr ⟨PlacedToken.conforms_trivia c', ?_⟩
    simpa using PlacedToken.conforms_leaf herror
  · rw [Tree.nodeKinds_append, PlacedToken.nodeKinds_leaf]
    rfl
  · exact (AreClosed.leaf (Cursor.isTrivia_of_ahead hahead)).behind (List.cons_ne_nil _ _) _

/-- The first token of a rule that was looked at from where the rule was called. -/
theorem first (hahead : c'.ahead = c.ahead) (hkind : c.kind? = some kind) (herror : kind ≠ .error) :
    Parses 1 c' 1 c'.bump :=
  (refl c').bump ((Cursor.kind?_congr hahead).trans hkind) herror

theorem error (cause : SyntaxError.Cause) (h : Parses least c shape c') :
    Parses least c shape' (c'.error cause) := by
  obtain ⟨trees, hemits, hlength, hfills, _⟩ := h
  refine ⟨trees, hemits.error cause, hlength, hfills, fun herrors => ?_⟩
  have hlonger := congrArg List.length herrors
  have := hemits.errors.length_le
  simp only [Cursor.error, List.length_cons] at hlonger
  omega

theorem accept (h : Parses least c shape c') (herror : kind ≠ .error) :
    Parses least c shape (c'.accept kind) := by
  unfold Cursor.accept
  split
  · rename_i hsees
    exact (h.bump (Cursor.sees_iff.mp hsees) herror).weaken (Nat.le_succ _)
  · exact h

theorem expect (h : Parses least c shape c') (herror : kind ≠ .error) :
    Parses least c shape (c'.expect kind) := by
  unfold Cursor.expect
  split
  · rename_i hsees
    exact (h.bump (Cursor.sees_iff.mp hsees) herror).weaken (Nat.le_succ _)
  · exact h.error _

theorem expectThen (h : Parses least c shape c') (herror : kind ≠ .error)
    (hrule : Parses (least + 1) c shape c'.bump → Parses 0 c'.bump shape' (rule c'.bump)) :
    Parses least c (shape * shape') (c'.expectThen kind rule) := by
  unfold Cursor.expectThen
  split
  · rename_i hsees
    have hbump := h.bump (Cursor.sees_iff.mp hsees) herror
    exact (hbump.trans (hrule hbump)).weaken (Nat.le_succ _)
  · exact h.error _

/-- A token behind what has been spelled, and anything behind it. -/
theorem writes_expectThen {form : RegularExpression Kind} (h : Parses least c shape c')
    (hwrites : Writes c form c') (herror : kind ≠ .error)
    (hrule : Parses (least + 1) c shape c'.bump → Parses 0 c'.bump shape' (rule c'.bump)) :
    Writes c (form * one kind * anything) (c'.expectThen kind rule) := by
  unfold Cursor.expectThen
  split
  · rename_i hsees
    have hkind := Cursor.sees_iff.mp hsees
    obtain ⟨trees, hemits, -⟩ := hrule (h.bump hkind herror)
    exact (hwrites.trans (.bump hkind)).trans (.anything hemits)
  · exact hwrites.error _

/-- A nested rule applies behind a token of the rule around it. -/
theorem nested (h : Parses (least + 1) c shape c') (hrule : ParsesBelow bound rule shape')
    (hbound : c.rest.length ≤ bound) : Parses 0 c' shape' (rule c') := by
  have := h.length_le
  exact hrule c' (by omega)

end Parses

/-! ## Nodes -/

theorem makes_finishNode (h : Parses least (c.skipTrivia.startNode kind) (production kind) c')
    (hpos : 0 < least) (hspells : Spells kind (c.skipTrivia.startNode kind) c') :
    Makes least c kind c'.finishNode := by
  obtain ⟨children, hemits, hlength, hfills, hconforms⟩ := h
  have hrest : (c.skipTrivia.startNode kind).ahead = (c.skipTrivia.startNode kind).rest :=
    c.ahead_skipTrivia.trans c.rest_skipTrivia.symm
  have hsignificant := hfills.significant hpos
  refine ⟨children, .node hemits, ?_, .node (hemits.begins hrest hsignificant) hfills.filled,
    fun herrors => ?_⟩
  · exact Nat.le_trans hlength (Emits.skipTrivia c).length_le
  · have hnone := herrors.trans (errors_skipTrivia c).symm
    obtain ⟨hchildren, hword, hclosed⟩ := hconforms hnone
    exact ⟨.node hword hchildren,
      hclosed.node hsignificant.ne_nil (hspells.isSpelt hemits hnone)⟩

theorem makes_spelt (hrule : ∀ c₀ : Cursor, c₀.ahead = c.ahead → c₀.rest.length ≤ c.rest.length →
      Parses (least + 1) c₀ (production kind) (rule c₀) ∧ Spells kind c₀ (rule c₀)) :
    Makes (least + 1) c kind (c.node kind rule) := by
  obtain ⟨hparses, hspells⟩ := hrule (c.skipTrivia.startNode kind) c.ahead_skipTrivia
    (Emits.skipTrivia c).length_le
  exact makes_finishNode hparses least.succ_pos hspells

theorem makes_node (hfree : kind.spelling? = none)
    (hrule : ∀ c₀ : Cursor, c₀.ahead = c.ahead → c₀.rest.length ≤ c.rest.length →
      Parses (least + 1) c₀ (production kind) (rule c₀)) :
    Makes (least + 1) c kind (c.node kind rule) :=
  makes_spelt fun c₀ hahead hle => ⟨hrule c₀ hahead hle, .of_free hfree _ _⟩

theorem Makes.parses (h : Makes least c kind c') : Parses least c (one kind) c' := by
  obtain ⟨children, hemits, hlength, hfilled, hconforms⟩ := h
  have hsignificant : Tree.IsSignificant [.node kind children] := by
    rw [Tree.IsSignificant, Emits.leavesOf_node]
    exact hfilled.significant
  refine ⟨_, hemits, hlength, ?_, fun herrors => ⟨?_, ?_, ?_⟩⟩
  · exact ((Fills.leaves _).append ⟨by simpa using hfilled, fun _ => hsignificant⟩).weaken
      (Nat.zero_add least).ge
  · refine List.forall_mem_append.mpr ⟨PlacedToken.conforms_trivia c, ?_⟩
    simpa using (hconforms herrors).1
  · rw [Tree.nodeKinds_append, PlacedToken.nodeKinds_leaf]
    rfl
  · exact (hconforms herrors).2.behind hsignificant.ne_nil _

/-- A node over a single token. -/
theorem makes_tokenNode {token : Kind} (hkind : c.kind? = some token) (herror : token ≠ .error)
    (hleaf : production kind = 1)
    (hspelt : (kind.spelling?.all fun form => form.rmatch [token]) = true) :
    Makes 1 c kind (Cursor.tokenNode kind c) := by
  refine makes_spelt fun c₀ hahead _ => ⟨?_, fun form hform => ?_⟩
  · rw [hleaf]
    exact .first hahead hkind herror
  · rw [Option.mem_def.mp hform, Option.all_some] at hspelt
    refine (Writes.bump ((Cursor.kind?_congr hahead).trans hkind)).mono fun word hword => ?_
    obtain rfl : word = [token] := hword
    exact RegularExpression.rmatch_iff_matches' form _ |>.mp hspelt

theorem Makes.writes (h : Makes least c kind c') (hkind : kind.isTrivia = false) :
    Writes c (one kind) c' := by
  obtain ⟨children, hemits, -⟩ := h
  exact .of_emits hemits hkind

/-- One node of one of the kinds, behind nothing but white space and comments. -/
structure MakesOne (least : Nat) (c : Cursor) (kinds : List Kind) (c' : Cursor) : Prop where
  parses : Parses least c (oneOf kinds) c'
  writes : Writes c (oneOf kinds) c'

namespace MakesOne

theorem skipTrivia (h : MakesOne least c.skipTrivia kinds c') : MakesOne least c kinds c' :=
  ⟨.skipTrivia h.parses, .skipTrivia h.writes⟩

theorem error (cause : SyntaxError.Cause) (kinds : List Kind) (c : Cursor) :
    MakesOne 0 c kinds (c.error cause) :=
  ⟨(Parses.refl c).error cause, (Writes.refl c).error cause⟩

theorem weaken (h : MakesOne least c kinds c') (hle : least' ≤ least) : MakesOne least' c kinds c' :=
  ⟨h.parses.weaken hle, h.writes⟩

theorem subset {kinds' : List Kind} (h : MakesOne least c kinds c') (hsubset : kinds ⊆ kinds') :
    MakesOne least c kinds' c' :=
  ⟨h.parses.subset hsubset, h.writes.mono (Production.oneOf_le hsubset)⟩

theorem fromHere {rule : Nat → Rule}
    (hrule : ∀ c₀ : Cursor, c₀.ahead = c.ahead → c₀.ahead = c₀.rest →
      c₀.rest.length ≤ c.rest.length → MakesOne least c₀ kinds (rule c₀.builder.checkpoint c₀)) :
    MakesOne least c kinds (c.fromHere rule) :=
  skipTrivia (hrule c.skipTrivia c.ahead_skipTrivia
    (c.ahead_skipTrivia.trans c.rest_skipTrivia.symm) (Emits.skipTrivia c).length_le)

end MakesOne

/-- The rule makes a node of one of the kinds wherever less than `bound` tokens are left. -/
def MakesBelow (bound : Nat) (rule : Rule) (kinds : List Kind) : Prop :=
  ∀ c : Cursor, c.rest.length < bound → MakesOne 0 c kinds (rule c)

theorem MakesBelow.parses (h : MakesBelow bound rule kinds) :
    ParsesBelow bound rule (oneOf kinds) := fun c hc => (h c hc).parses

theorem Makes.one (h : Makes least c kind c') (hmem : kind ∈ kinds) (hkind : kind.isTrivia = false)
    (hle : least' ≤ least) : MakesOne least' c kinds c' where
  parses := (h.parses.mem_oneOf hmem).weaken hle
  writes := (h.writes hkind).mono fun word hword => by
    obtain rfl : word = [kind] := hword
    exact Production.mem_oneOf hmem

namespace Parses

theorem node (hfree : kind.spelling? = none)
    (hrule : ∀ c₀ : Cursor, c₀.ahead = c.ahead → c₀.rest.length ≤ c.rest.length →
      Parses (least + 1) c₀ (production kind) (rule c₀)) :
    Parses (least + 1) c (one kind) (c.node kind rule) := (makes_node hfree hrule).parses

theorem tokenNode {token : Kind} (hkind : c.kind? = some token) (herror : token ≠ .error)
    (hleaf : production kind = 1)
    (hspelt : (kind.spelling?.all fun form => form.rmatch [token]) = true) :
    Parses 1 c (one kind) (Cursor.tokenNode kind c) :=
  (makes_tokenNode hkind herror hleaf hspelt).parses

theorem fromHere {rule : Nat → Rule}
    (hrule : ∀ c₀ : Cursor, c₀.ahead = c.ahead → c₀.ahead = c₀.rest →
      c₀.rest.length ≤ c.rest.length →
      Parses least c₀ (oneOf kinds) (rule c₀.builder.checkpoint c₀)) :
    Parses least c (oneOf kinds) (c.fromHere rule) :=
  skipTrivia (hrule c.skipTrivia c.ahead_skipTrivia
    (c.ahead_skipTrivia.trans c.rest_skipTrivia.symm) (Emits.skipTrivia c).length_le)

/-- A node around a way from where its checkpoint was taken, at a token. -/
theorem wrapSpelt (h : Parses least c shape c') (htoken : c.ahead = c.rest)
    (hrule : ∀ c₀ : Cursor, c₀.rest = c'.rest → Parses least' c₀ shape' (rule c₀))
    (hle : (shape * shape').matches' ≤ (production kind).matches') (hpos : 0 < least + least')
    (hspells : SpellsAround kind c c' rule) :
    Parses (least + least') c (one kind) (c'.wrap c.builder.checkpoint kind rule) := by
  obtain ⟨trees, hemits, hlength, hfills, hconforms⟩ := h
  obtain ⟨trees', hemits', hlength', hfills', hconforms'⟩ :=
    hrule (c'.startNodeAt c.builder.checkpoint kind) rfl
  have hrest : (c'.startNodeAt c.builder.checkpoint kind).rest = c'.rest := rfl
  have hboth := hemits.wrap hemits'
  have hfills' := hfills.append hfills'
  have hsignificant := hfills'.significant hpos
  have hbegins : Tree.Begins (trees ++ trees') := by
    rw [Tree.Begins, ← Emits.leavesOf_node kind]
    exact hboth.begins htoken (by rwa [Tree.IsSignificant, Emits.leavesOf_node])
  refine ⟨_, hboth, ?_, hfills'.node hbegins, fun herrors => ?_⟩
  · have hlength' : (c'.wrap c.builder.checkpoint kind rule).rest.length + least' ≤
        c'.rest.length := hlength'
    omega
  · have hmiddle : c'.errors = c.errors := by
      have hsuffix : c'.errors <:+ c.errors := herrors ▸ hemits'.errors
      exact hsuffix.eq_of_length_le hemits.errors.length_le
    have hlater := herrors.trans hmiddle.symm
    obtain ⟨htrees, hword, hclosed⟩ := hconforms hmiddle
    obtain ⟨htrees', hword', hclosed'⟩ := hconforms' hlater
    refine ⟨List.forall_mem_singleton.mpr (.node (hle ?_) ?_), rfl,
      (hclosed.append hclosed').node hsignificant.ne_nil
        (hspells.isSpelt hrest hemits hemits' hmiddle hlater)⟩
    · rw [Tree.nodeKinds_append]
      exact Language.append_mem_mul hword hword'
    · exact List.forall_mem_append.mpr ⟨htrees, htrees'⟩

/-- The same for a kind that is spelled in any way. -/
theorem wrap (h : Parses least c shape c') (htoken : c.ahead = c.rest)
    (hrule : ∀ c₀ : Cursor, c₀.rest = c'.rest → Parses least' c₀ shape' (rule c₀))
    (hle : (shape * shape').matches' ≤ (production kind).matches') (hpos : 0 < least + least')
    (hfree : kind.spelling? = none) :
    Parses (least + least') c (one kind) (c'.wrap c.builder.checkpoint kind rule) :=
  h.wrapSpelt htoken hrule hle hpos (.of_free hfree)

theorem writes_wrap (h : Parses least c shape c')
    (hrule : ∀ c₀ : Cursor, c₀.rest = c'.rest → Parses least' c₀ shape' (rule c₀))
    (hkind : kind.isTrivia = false) :
    Writes c (one kind) (c'.wrap c.builder.checkpoint kind rule) := by
  obtain ⟨trees, hemits, -⟩ := h
  obtain ⟨trees', hemits', -⟩ := hrule (c'.startNodeAt c.builder.checkpoint kind) rfl
  exact ⟨_, hemits.wrap hemits', fun _ => Tree.partKinds_singleton rfl hkind⟩

/-- The node is one of the kinds. -/
theorem makesOne_wrap {least₀ : Nat} (h : Parses least c shape c') (htoken : c.ahead = c.rest)
    (hrule : ∀ c₀ : Cursor, c₀.rest = c'.rest → Parses least' c₀ shape' (rule c₀))
    (hle : (shape * shape').matches' ≤ (production kind).matches') (hpos : 0 < least + least')
    (hspells : SpellsAround kind c c' rule) (hmem : kind ∈ kinds) (hkind : kind.isTrivia = false)
    (hleast : least₀ ≤ least + least') :
    MakesOne least₀ c kinds (c'.wrap c.builder.checkpoint kind rule) where
  parses := ((h.wrapSpelt htoken hrule hle hpos hspells).mem_oneOf hmem).weaken hleast
  writes := (h.writes_wrap hrule hkind).mono fun word hword => by
    obtain rfl : word = [kind] := hword
    exact Production.mem_oneOf hmem

/-! ## Repetition -/

theorem star_trans (h : Parses least c (star shape) c') (h' : Parses least' c' shape c'') :
    Parses (least + least') c (star shape) c'' :=
  (h.trans h').mono kstar_mul_le_kstar

theorem repeatWhile_star
    (round : ∀ c' : Cursor, c'.rest.length ≤ c.rest.length → more c' = true →
      Parses 1 c' shape (rule c')) :
    Parses 0 c (star shape) (c.repeatWhile more rule) := by
  refine (Cursor.repeatWhile_induction (P := (Parses 0 c (star shape) ·)) ?_ c ?_).1
  · intro c' h hmore
    have hround := round c' h.length_le hmore
    exact ⟨(h.star_trans hround).weaken (Nat.zero_le _), hround.length_le⟩
  · exact (refl c).mono one_le_kstar

theorem repeatWhile_atLeastOne (hmore : more c = true)
    (round : ∀ c' : Cursor, c'.rest.length ≤ c.rest.length → more c' = true →
      Parses 1 c' shape (rule c')) :
    Parses 1 c (atLeastOne shape) (c.repeatWhile more rule) := by
  -- the first round leaves the left case for good
  let P (c' : Cursor) := c' = c ∨ Parses 1 c (atLeastOne shape) c'
  have hround (c' : Cursor) (h : P c') (hmore : more c' = true) :
      P (rule c') ∧ (rule c').rest.length < c'.rest.length := by
    obtain rfl | h := h
    · have hround := round c' (Nat.le_refl _) hmore
      refine ⟨.inr (hround.mono ?_), hround.length_le⟩
      exact le_mul_of_one_le_right' one_le_kstar
    · have hround := round c' (by have := h.length_le; omega) hmore
      refine ⟨.inr (((h.trans hround).weaken (by omega)).mono ?_), hround.length_le⟩
      simp only [atLeastOne, RegularExpression.matches'_mul, RegularExpression.matches'_star,
        mul_assoc]
      exact mul_le_mul_right kstar_mul_le_kstar _
  obtain ⟨hend | hend, hnot⟩ := Cursor.repeatWhile_induction hround c (.inl rfl)
  · rw [hend, hmore] at hnot
    cases hnot
  · exact hend

end Parses

theorem makesBelow_zero (rule : Rule) (kinds : List Kind) : MakesBelow 0 rule kinds :=
  fun _ hc => absurd hc (Nat.not_lt_zero _)

theorem parsesBelow_zero (rule : Rule) (shape : RegularExpression Kind) :
    ParsesBelow 0 rule shape := fun _ hc => absurd hc (Nat.not_lt_zero _)

/-- A name, a separator, and what is nested behind it. -/
theorem ParsesBelow.labelled {inner : Rule} {separator : Kind}
    (hinner : ParsesBelow bound inner shape) (hshape : production kind = shape)
    (herror : separator ≠ .error) (hfree : kind.spelling? = none) :
    ParsesBelow bound (fun c =>
      if c.sees .lowerIdent then c.node kind fun c => c.bump.expectThen separator inner
      else c.error .expectedFieldName) (one kind) := by
  intro c hbound
  dsimp only
  split
  · rename_i hsees
    refine (Parses.node hfree fun c₀ hahead hle => ?_).weaken (Nat.zero_le 1)
    have hname : Parses 1 c₀ 1 c₀.bump := .first hahead (Cursor.sees_iff.mp hsees) (by decide)
    rw [hshape]
    have hlabelled := hname.expectThen herror fun h => h.nested hinner (by omega)
    exact hlabelled.mono (one_mul _).le
  · exact (Parses.refl c).error _

namespace Parses

/-! ## Lists -/

/-- An item behind a comma. -/
theorem comma {item : Rule} (hsees : c.sees .comma = true)
    (hitem : ParsesBelow bound item shape) (hbound : c.rest.length ≤ bound) :
    Parses 1 c shape (item c.bump) := by
  have hcomma : Parses 1 c 1 c.bump := (refl c).bump (Cursor.sees_iff.mp hsees) (by decide)
  exact hcomma.one_trans (hcomma.nested hitem hbound)

theorem commas {item : Rule} (hsees : c.sees .comma = true)
    (hitem : ParsesBelow bound item shape) (hbound : c.rest.length ≤ bound) :
    Parses 1 c (atLeastOne shape)
      (c.repeatWhile (·.sees .comma) (fun c => item c.bump)) :=
  repeatWhile_atLeastOne hsees fun _ hle hmore => comma hmore hitem (Nat.le_trans hle hbound)

theorem commaSeparated {item : Rule} (hitem : ParsesBelow bound item shape)
    (hbound : c.rest.length < bound) : Parses 0 c (star shape) (c.commaSeparated item) := by
  have hfirst := hitem c hbound
  refine (hfirst.trans (repeatWhile_star fun c' hle hmore => comma hmore hitem ?_)).mono
    mul_kstar_le_kstar
  have := hfirst.length_le
  omega

/-- Items up to a closing bracket, where there may be none. -/
theorem items {item : Rule} {closing : Kind} (h : Parses (least + 1) c shape c')
    (hitem : ParsesBelow bound item shape') (hbound : c.rest.length ≤ bound)
    (herror : closing ≠ .error) :
    Parses (least + 1) c (shape * star shape')
      ((if c'.sees closing then c' else c'.commaSeparated item).expect closing) := by
  refine expect ?_ herror
  split
  · exact h.mono (le_mul_of_one_le_right' one_le_kstar)
  · have := h.length_le
    exact h.trans (commaSeparated hitem (by omega))

/-- What closes right after an opening parenthesis. -/
theorem unit (h : Parses (least + 1) c 1 c') (htoken : c.ahead = c.rest)
    (hopen : Writes c (one .lParen) c') (hsees : c'.sees .rParen = true) (hmem : .unitExpr ∈ kinds) :
    MakesOne (least + 1) c kinds (c'.wrap c.builder.checkpoint .unitExpr Cursor.bump) := by
  have hkind (c₀ : Cursor) (hrest : c₀.rest = c'.rest) : c₀.kind? = some .rParen := by
    rw [← Cursor.sees_congr (Cursor.ahead_congr hrest)] at hsees
    exact Cursor.sees_iff.mp hsees
  have hclose (c₀ : Cursor) (hrest : c₀.rest = c'.rest) : Parses 1 c₀ 1 c₀.bump :=
    (refl c₀).bump (hkind c₀ hrest) (by decide)
  have hspells : SpellsAround .unitExpr c c' Cursor.bump :=
    .of_writes rfl hopen (fun c₀ hrest => .bump (hkind c₀ hrest)) le_rfl
  exact h.makesOne_wrap htoken hclose (one_mul _).le (Nat.succ_pos _) hspells hmem rfl
    (Nat.le_succ _)

/-- The rest of what an opening parenthesis and one inner part start: more parts behind commas make
it a tuple. -/
theorem tupleOrGroup {inner : Rule} {tuple group : Kind} (h : Parses (least + 1) c shape c')
    (htoken : c.ahead = c.rest) (hinner : ParsesBelow bound inner shape)
    (hbound : c.rest.length ≤ bound)
    (htuple : production tuple = shape * atLeastOne shape)
    (hgroup : shape.matches' ≤ (production group).matches')
    (hmem : tuple ∈ kinds ∧ group ∈ kinds) (hkinds : tuple.isTrivia = false ∧ group.isTrivia = false)
    (hspells : (c'.sees .comma = true → SpellsAround tuple c c' fun c =>
        (c.repeatWhile (·.sees .comma) fun c => inner c.bump).expect .rParen) ∧
      SpellsAround group c c' (·.expect .rParen)) :
    MakesOne (least + 1) c kinds
      (if c'.sees .comma then
        c'.wrap c.builder.checkpoint tuple fun c =>
          (c.repeatWhile (·.sees .comma) fun c => inner c.bump).expect .rParen
      else c'.wrap c.builder.checkpoint group (·.expect .rParen)) := by
  split
  · rename_i hcomma
    have hmore (c₀ : Cursor) (hrest : c₀.rest = c'.rest) : Parses 1 c₀ (atLeastOne shape)
        ((c₀.repeatWhile (·.sees .comma) fun c => inner c.bump).expect .rParen) := by
      have hsees : c₀.sees .comma = true := by
        rwa [Cursor.sees_congr (Cursor.ahead_congr hrest)]
      have := h.length_le
      exact (commas hsees hinner (by rw [hrest]; omega)).expect (by decide)
    exact h.makesOne_wrap htoken hmore (by rw [htuple]) (Nat.succ_pos _) (hspells.1 hcomma) hmem.1
      hkinds.1 (Nat.le_succ _)
  · refine h.makesOne_wrap htoken (fun c₀ _ => (refl c₀).expect (by decide)) ?_ (Nat.succ_pos _)
      hspells.2 hmem.2 hkinds.2 (Nat.le_refl _)
    rwa [RegularExpression.matches'_mul, RegularExpression.matches'_epsilon, mul_one]

end Parses

namespace MakesBelow

variable {item : Rule}

/-- A nested rule applies behind a token of the rule around it. -/
theorem nested (h : MakesBelow bound rule kinds) (hfront : Parses (least + 1) c shape c')
    (hbound : c.rest.length ≤ bound) : MakesOne 0 c' kinds (rule c') := by
  have := hfront.length_le
  exact h c' (by omega)

theorem commas (h : MakesBelow bound item kinds) (hbound : c.rest.length ≤ bound) :
    Writes c (star (one .comma * oneOf kinds))
      (c.repeatWhile (·.sees .comma) fun c => item c.bump) := by
  refine .repeatWhile_star fun c' hle hmore => ?_
  have hcomma : Parses 1 c' 1 c'.bump :=
    (Parses.refl c').bump (Cursor.sees_iff.mp hmore) (by decide)
  have hlength := (Parses.comma hmore h.parses (Nat.le_trans hle hbound)).length_le
  refine ⟨(Writes.bump (Cursor.sees_iff.mp hmore)).trans ?_, by omega⟩
  exact (h.nested hcomma (Nat.le_trans hle hbound)).writes

theorem commaSeparated (h : MakesBelow bound item kinds) (hbound : c.rest.length < bound) :
    Writes c (separated (oneOf kinds)) (c.commaSeparated item) := by
  have hlength := (h c hbound).parses.length_le
  exact (h c hbound).writes.trans (h.commas (by omega))

end MakesBelow

end ElmLint.Syntax
