import ElmLint.Proofs.Syntax.Columns

/-!
# Where tokens arrive

A token that is neither white space nor a comment arrives in the innermost node that had begun
before it. `Reads firsts kind c c'`: on the way from `c` to `c'`, inside a node of `kind`, a token
in the first column arrives only where its node reaches for it, and the first token of the way only
if its kind is among `firsts`. The lemmas follow how rules are put together.
-/

namespace ElmLint.Syntax

variable {c c' c'' : Cursor} {kind outer : Kind} {firsts firsts' : List Kind}
  {column floor : Nat} {into? : Option Kind} {trees trees' : List Tree} {rule : Rule}

-- ---------------------------------------------------------------------------
-- Arrivals
-- ---------------------------------------------------------------------------

structure Arrival where
  /-- The innermost node that had begun before the token; none for the first token of an item. -/
  into? : Option Kind
  kind : Kind
  column : Nat
  deriving DecidableEq, Repr

namespace Tree

mutual

/-- The arrivals of the tokens of a tree, the first of them in `into?`. -/
def arrivals (column : Nat) (into? : Option Kind) : Tree → List Arrival
  | .token kind _ => if kind.isTrivia then [] else [⟨into?, kind, column⟩]
  | .node kind children => arrivalsOf kind column into? children

def arrivalsOf (kind : Kind) (column : Nat) (into? : Option Kind) : List Tree → List Arrival
  | [] => []
  | tree :: trees =>
    let first := tree.arrivals column into?
    first ++ arrivalsOf kind (columnAfter column tree.text.toList)
      (if first.isEmpty then into? else some kind) trees

end

theorem arrivalsOf_append (kind : Kind) (column : Nat) (into? : Option Kind)
    (first second : List Tree) :
    arrivalsOf kind column into? (first ++ second) =
      arrivalsOf kind column into? first ++
        arrivalsOf kind (columnAfter column (textOf first))
          (if (arrivalsOf kind column into? first).isEmpty then into? else some kind) second := by
  induction first generalizing column into? with
  | nil => rfl
  | cons tree first ih =>
    have htext : textOf (tree :: first) = tree.text.toList ++ textOf first := by
      rw [toList_text, ← textOf_append, List.singleton_append]
    rw [List.cons_append, arrivalsOf, arrivalsOf, ih, htext, columnAfter_append]
    cases tree.arrivals column into? with
    | nil => simp
    | cons arrival arrivals => simp

mutual

theorem isTrivia_of_arrivals (column : Nat) (into? : Option Kind) (tree : Tree)
    (h : tree.arrivals column into? = []) : ∀ leaf ∈ tree.leaves, leaf.1.isTrivia = true := by
  cases tree with
  | token kind text =>
    rw [arrivals] at h
    split at h
    · simpa [leaves]
    · cases h
  | node kind children => exact isTrivia_of_arrivalsOf kind column into? children h

/-- Trees in which nothing arrives are white space and comments. -/
theorem isTrivia_of_arrivalsOf (kind : Kind) (column : Nat) (into? : Option Kind)
    (trees : List Tree) (h : arrivalsOf kind column into? trees = []) :
    ∀ leaf ∈ leavesOf trees, leaf.1.isTrivia = true := by
  cases trees with
  | nil => exact nofun
  | cons tree trees =>
    rw [arrivalsOf, List.append_eq_nil_iff] at h
    exact List.forall_mem_append.mpr ⟨isTrivia_of_arrivals column into? tree h.1,
      isTrivia_of_arrivalsOf kind _ _ trees h.2⟩

end

end Tree

namespace Kind

-- The kinds of the tokens that a type, a pattern, an atomic pattern and an atom can start with.

def typeFirsts : List Kind := [.lowerIdent, .upperIdent, .lParen, .lBrace]

def argumentFirsts : List Kind :=
  [.lowerIdent, .upperIdent, .underscore, .lParen, .lBracket, .lBrace, .number, .string, .char,
   .operatorIdent]

/-- A pattern that could not be read may be followed by its name. -/
def patternFirsts : List Kind := .asKw :: argumentFirsts

def atomFirsts : List Kind :=
  [.lowerIdent, .upperIdent, .number, .string, .char, .dot, .lParen, .lBracket, .lBrace]

/-- The kinds of the tokens that a node takes even from the first column, although a layout block
ends there. -/
def overreach : Kind → List Kind
  -- The header and the imports.
  | .moduleDeclaration => [.moduleKw, .upperIdent, .exposingKw, .lParen]
  | .importClause => [.upperIdent, .asKw, .exposingKw, .lParen]
  | .asClause => [.upperIdent]
  | .exposingList => [.dotDot, .rParen, .comma, .lowerIdent, .upperIdent, .lParen]
  | .exposedType => [.lParen]
  | .exposedUnionConstructors => [.dotDot, .rParen]
  | .exposedOperator => [.operatorIdent, .rParen]
  -- Declarations.
  | .valueDeclaration | .field => [.eq]
  | .typeSignature | .fieldType => .colon :: typeFirsts
  | .portSignature => .colon :: typeFirsts
  | .typeDeclaration => [.upperIdent, .lowerIdent, .eq]
  | .typeAliasDeclaration => .aliasKw :: .eq :: typeFirsts
  -- Types.
  | .typeExpression => .rParen :: typeFirsts
  | .tupleType => .comma :: .rParen :: typeFirsts
  | .recordType | .recordExpr => [.lowerIdent, .pipe, .comma, .rBrace]
  -- Patterns.
  | .parenthesizedPattern => .rParen :: patternFirsts
  | .tuplePattern => .comma :: .rParen :: patternFirsts
  | .listPattern => .comma :: .rBracket :: patternFirsts
  | .recordPattern => [.lowerIdent, .comma, .rBrace]
  | .literalPattern => [.number]
  | .consPattern => argumentFirsts
  | .asPattern => [.asKw, .lowerIdent]
  -- Expressions.
  | .unitExpr | .parenthesizedExpr => [.rParen]
  | .tupleExpr => [.comma, .rParen]
  | .operatorAsFunctionExpr => [.operatorIdent, .rParen]
  | .listExpr => [.comma, .rBracket]
  | .fieldAccessExpr => [.dot]
  | .fieldAccessorFunctionExpr => [.lowerIdent]
  | .negateExpr => atomFirsts
  | .anonymousFunctionExpr => .arrow :: argumentFirsts
  | .ifElseExpr => [.thenKw, .elseKw]
  | .caseOfExpr => [.ofKw]
  | .caseOfBranch => [.arrow]
  | .letInExpr => [.inKw]
  | _ => []

end Kind

/-- In the first column, the token begins an item, or its node reaches for it. -/
def Arrival.IsSettled (arrival : Arrival) : Prop :=
  arrival.column = 0 → ∀ kind ∈ arrival.into?, arrival.kind ∈ kind.overreach

-- ---------------------------------------------------------------------------
-- What may arrive next
-- ---------------------------------------------------------------------------

/-- The next token may arrive in `into?`: it does not stand in the first column, or is not among
`firsts`, or is reached for. -/
def Admits (firsts : List Kind) (into? : Option Kind) (c : Cursor) : Prop :=
  ∀ t ∈ c.next?, t.column = 0 → t.kind ∈ firsts → ∀ kind ∈ into?, t.kind ∈ kind.overreach

namespace Admits

theorem item (firsts : List Kind) (c : Cursor) : Admits firsts none c :=
  fun _ _ _ _ _ h => absurd h (Option.not_mem_none _)

theorem inside (h : firsts ⊆ kind.overreach) (c : Cursor) : Admits firsts (some kind) c := by
  rintro t _ _ hfirst _ ⟨⟩
  exact h hfirst

theorem mono (h : Admits firsts into? c) (hle : firsts' ⊆ firsts) : Admits firsts' into? c :=
  fun t ht hcolumn hfirst => h t ht hcolumn (hle hfirst)

theorem congr (h : Admits firsts into? c) (hahead : c'.ahead = c.ahead) :
    Admits firsts into? c' := by
  rw [Admits, Cursor.next?, hahead]
  exact h

/-- Right of a floor everything may arrive. -/
theorem right (h : c.atLayoutEnd floor = false) : Admits firsts into? c := by
  intro t ht hcolumn
  simp [Cursor.atLayoutEnd, Cursor.column?, Option.mem_def.mp ht, hcolumn] at h

end Admits

-- ---------------------------------------------------------------------------
-- Settled trees
-- ---------------------------------------------------------------------------

/-- Emitted at `c` into a node of `kind`, all that arrives in `trees` is settled. -/
def Settles (firsts : List Kind) (kind : Kind) (c : Cursor) (trees : List Tree) : Prop :=
  ∀ column into?, c.Stands column → Admits firsts into? c →
    ∀ arrival ∈ Tree.arrivalsOf kind column into? trees, arrival.IsSettled

theorem arrivalsOf_trivia (kind : Kind) (column : Nat) (into? : Option Kind) (c : Cursor) :
    Tree.arrivalsOf kind column into? (c.trivia.map PlacedToken.leaf) = [] := by
  have htrivia : ∀ t ∈ c.trivia, t.kind.isTrivia = true :=
    List.all_eq_true.mp List.all_takeWhile
  generalize c.trivia = tokens at htrivia
  induction tokens generalizing column with
  | nil => rfl
  | cons t tokens ih =>
    obtain ⟨ht, htokens⟩ := List.forall_mem_cons.mp htrivia
    simp [Tree.arrivalsOf, PlacedToken.leaf, Tree.arrivals, ht, ih _ htokens]

/-- Trees in which nothing arrives leave the next token in front. -/
theorem Emits.ahead_eq (h : Emits c trees c')
    (hnone : Tree.arrivalsOf kind column into? trees = []) : c'.ahead = c.ahead := by
  obtain ⟨consumed, hrest, hleaves⟩ := h.leaves
  have htrivia := Tree.isTrivia_of_arrivalsOf kind column into? trees hnone
  rw [hleaves] at htrivia
  rw [Cursor.ahead, Cursor.ahead, hrest, List.dropWhile_append_of_pos]
  intro t ht
  exact htrivia _ (List.mem_map_of_mem ht)

namespace Settles

theorem nil (firsts : List Kind) (kind : Kind) (c : Cursor) : Settles firsts kind c [] :=
  fun _ _ _ _ _ h => absurd h List.not_mem_nil

theorem mono (h : Settles firsts kind c trees) (hle : firsts ⊆ firsts') :
    Settles firsts' kind c trees :=
  fun column into? hstands hadmits => h column into? hstands (hadmits.mono hle)

/-- What comes second arrives in the node itself, unless nothing arrived before. -/
theorem append (hemits : Emits c trees c') (h : Settles firsts kind c trees)
    (h' : Settles firsts' kind c' trees') (hover : firsts' ⊆ kind.overreach)
    (hfirsts : c'.ahead = c.ahead → firsts' ⊆ firsts) :
    Settles firsts kind c (trees ++ trees') := by
  intro column into? hstands hadmits
  rw [Tree.arrivalsOf_append]
  refine List.forall_mem_append.mpr ⟨h column into? hstands hadmits, ?_⟩
  refine h' _ _ (hstands.emits hemits) ?_
  split
  · rename_i hnone
    have hahead := hemits.ahead_eq (List.isEmpty_iff.mp hnone)
    exact (hadmits.mono (hfirsts hahead)).congr hahead
  · exact .inside hover c'

/-- The trees of a node are settled where the node is. -/
theorem node (h : Settles firsts kind c trees) : Settles firsts outer c [.node kind trees] := by
  intro column into? hstands hadmits
  rw [Tree.arrivalsOf, Tree.arrivals, Tree.arrivalsOf, List.append_nil]
  exact h column into? hstands hadmits

theorem skipTrivia (h : Settles firsts kind c' trees) (hahead : c'.rest = c.ahead) :
    Settles firsts kind c (c.trivia.map PlacedToken.leaf ++ trees) := by
  intro column into? hstands hadmits
  rw [Tree.arrivalsOf_append, arrivalsOf_trivia]
  have hrest : c'.rest = c.skipTrivia.rest := hahead.trans c.rest_skipTrivia.symm
  have hahead' : c'.ahead = c.ahead := by rw [Cursor.ahead_congr hrest, Cursor.ahead_skipTrivia]
  exact h _ _ ((hstands.emits (.skipTrivia c)).of_rest hrest) (hadmits.congr hahead')

theorem single {t : PlacedToken} {more : List PlacedToken} (hrest : c.rest = t :: more)
    (hfirst : t.kind ∈ firsts) : Settles firsts kind c [t.leaf] := by
  intro column into? hstands hadmits arrival harrival
  simp only [Tree.arrivalsOf, PlacedToken.leaf, Tree.arrivals, List.append_nil] at harrival
  split at harrival
  · cases harrival
  · rename_i hkind
    have hnext : c.next? = some t := by simp [Cursor.next?, Cursor.ahead, hrest, hkind]
    rw [List.mem_singleton.mp harrival]
    exact fun hcolumn => hadmits t hnext ((hstands.column_eq hrest).trans hcolumn) hfirst

end Settles

-- ---------------------------------------------------------------------------
-- Ways
-- ---------------------------------------------------------------------------

/-- A way inside a node of `kind` on which everything is settled, if it is not cut off. -/
def Reads (firsts : List Kind) (kind : Kind) (c c' : Cursor) : Prop :=
  c'.isCutOff = false → ∃ trees, Emits c trees c' ∧ Settles firsts kind c trees

/-- A way that makes one node, wherever it arrives. -/
def Forms (firsts : List Kind) (c c' : Cursor) : Prop :=
  c'.isCutOff = false → ∃ node : Tree, node.isNode = true ∧
    Emits c (c.trivia.map PlacedToken.leaf ++ [node]) c' ∧
    ∀ kind, Settles firsts kind c (c.trivia.map PlacedToken.leaf ++ [node])

theorem Forms.reads (h : Forms firsts c c') : Reads firsts kind c c' := by
  intro huncut
  obtain ⟨node, -, hemits, hsettles⟩ := h huncut
  exact ⟨_, hemits, hsettles kind⟩

theorem Forms.free (h : Forms firsts c c') (hright : c.atLayoutEnd floor = false) :
    Forms firsts' c c' := by
  intro huncut
  obtain ⟨node, hnode, hemits, hsettles⟩ := h huncut
  exact ⟨node, hnode, hemits, fun kind column into? hstands _ =>
    hsettles kind column into? hstands (.right hright)⟩

namespace Reads

theorem refl (firsts : List Kind) (kind : Kind) (c : Cursor) : Reads firsts kind c c :=
  fun _ => ⟨[], .refl c, .nil firsts kind c⟩

theorem cutOff (firsts : List Kind) (kind : Kind) (c : Cursor) : Reads firsts kind c c'.cutOff :=
  fun huncut => absurd huncut Bool.noConfusion

theorem mono (h : Reads firsts kind c c') (hle : firsts ⊆ firsts') : Reads firsts' kind c c' := by
  intro huncut
  obtain ⟨trees, hemits, hsettles⟩ := h huncut
  exact ⟨trees, hemits, hsettles.mono hle⟩

/-- What starts right of a floor takes nothing from the first column first. -/
theorem free (h : Reads firsts kind c c') (hright : c.atLayoutEnd floor = false) :
    Reads firsts' kind c c' := by
  intro huncut
  obtain ⟨trees, hemits, hsettles⟩ := h huncut
  exact ⟨trees, hemits, fun column into? hstands _ =>
    hsettles column into? hstands (.right hright)⟩

/-- What is first is known from the next token. -/
theorem narrow {token : Kind} (h : Reads firsts kind c c') (hkind : c.kind? = some token) :
    Reads [token] kind c c' := by
  intro huncut
  obtain ⟨trees, hemits, hsettles⟩ := h huncut
  refine ⟨trees, hemits, fun column into? hstands hadmits => hsettles column into? hstands ?_⟩
  intro t ht hcolumn _
  have htoken : t.kind = token := by simpa [Cursor.kind?, Option.mem_def.mp ht] using hkind
  exact hadmits t ht hcolumn (htoken ▸ .head _)

theorem trans (h : Reads firsts kind c c') (h' : Reads firsts' kind c' c'')
    (hover : firsts' ⊆ kind.overreach) (hfirsts : firsts' ⊆ firsts) :
    Reads firsts kind c c'' := by
  intro huncut
  obtain ⟨trees', hemits', hsettles'⟩ := h' huncut
  obtain ⟨trees, hemits, hsettles⟩ := h (hemits'.isCutOff.symm.trans huncut)
  exact ⟨_, hemits.trans hemits', .append hemits hsettles hsettles' hover fun _ => hfirsts⟩

/-- On right of a floor. -/
theorem further (h : Reads firsts kind c c') (h' : Reads [] kind c' c'') :
    Reads firsts kind c c'' := h.trans h' (List.nil_subset _) (List.nil_subset _)

/-- On inside the node, where its first token has been taken before. -/
theorem andThen (h : Reads kind.overreach kind c c') (h' : Reads firsts kind c' c'')
    (hover : firsts ⊆ kind.overreach) : Reads kind.overreach kind c c'' :=
  h.trans h' hover hover

theorem error (cause : SyntaxError.Cause) (h : Reads firsts kind c c') :
    Reads firsts kind c (c'.error cause) := by
  intro huncut
  obtain ⟨trees, hemits, hsettles⟩ := h huncut
  exact ⟨trees, hemits.error cause, hsettles⟩

theorem bump (h : ∀ token ∈ c.kind?, token ∈ firsts) : Reads firsts kind c c.bump := by
  intro _
  cases hahead : c.ahead with
  | nil =>
    rw [Cursor.bump_of_ahead_nil hahead]
    refine ⟨_, .skipTrivia c, ?_⟩
    rw [← List.append_nil (c.trivia.map PlacedToken.leaf)]
    exact (Settles.nil firsts kind c.skipTrivia).skipTrivia c.rest_skipTrivia
  | cons t more =>
    have hfirst : t.kind ∈ firsts := h _ (by simp [Cursor.kind?, Cursor.next?, hahead])
    have htoken : Settles firsts kind c.skipTrivia [t.leaf] :=
      .single (c.rest_skipTrivia.trans hahead) hfirst
    exact ⟨_, .bump hahead, htoken.skipTrivia c.rest_skipTrivia⟩

/-- A token, and on inside the node that it arrived in. -/
theorem first {token : Kind} (hkind : c.kind? = some token)
    (h : Reads kind.overreach kind c.bump c') : Reads [token] kind c c' := by
  intro huncut
  obtain ⟨trees, hemits, hsettles⟩ := h huncut
  obtain ⟨t, more, hahead, rfl⟩ := Cursor.ahead_of_kind? hkind
  have hbump : Settles [t.kind] kind c.skipTrivia [t.leaf] :=
    .single (c.rest_skipTrivia.trans hahead) (.head _)
  have hmoved : c.bump.ahead ≠ c.ahead := by
    intro hsame
    have hle : c.bump.ahead.length ≤ c.bump.rest.length :=
      (List.dropWhile_suffix _).length_le
    rw [hsame, Cursor.rest_bump, hahead] at hle
    exact absurd hle (Nat.not_succ_le_self _)
  exact ⟨_, (Emits.bump hahead).trans hemits,
    (hbump.skipTrivia c.rest_skipTrivia).append (.bump hahead) hsettles (List.Subset.refl _)
      fun hsame => absurd hsame hmoved⟩

theorem accept {token : Kind} (c : Cursor) : Reads [token] kind c (c.accept token) := by
  unfold Cursor.accept
  split
  · rename_i hsees
    exact bump (by simp [Cursor.sees_iff.mp hsees])
  · exact refl _ _ c

theorem expect {token : Kind} (c : Cursor) : Reads [token] kind c (c.expect token) := by
  unfold Cursor.expect
  split
  · rename_i hsees
    exact bump (by simp [Cursor.sees_iff.mp hsees])
  · exact (refl _ _ c).error _

theorem expectThen {token : Kind} (h : Reads firsts kind c.bump (rule c.bump))
    (hover : firsts ⊆ kind.overreach) : Reads [token] kind c (c.expectThen token rule) := by
  unfold Cursor.expectThen
  split
  · rename_i hsees
    exact first (Cursor.sees_iff.mp hsees) (h.mono hover)
  · exact (refl _ _ c).error _

end Reads

-- ---------------------------------------------------------------------------
-- Nodes
-- ---------------------------------------------------------------------------

theorem Forms.node (hrule : ∀ c₀ : Cursor, c₀.ahead = c.ahead → Reads firsts kind c₀ (rule c₀)) :
    Forms firsts c (c.node kind rule) := by
  intro huncut
  obtain ⟨trees, hemits, hsettles⟩ := hrule (c.skipTrivia.startNode kind) c.ahead_skipTrivia huncut
  exact ⟨.node kind trees, rfl, .node hemits, fun _ => hsettles.node.skipTrivia c.rest_skipTrivia⟩

/-- A node that starts with a token that was looked at from where the rule was called. -/
theorem Forms.first {token : Kind} (hkind : c.kind? = some token)
    (hrule : ∀ c₀ : Cursor, c₀.ahead = c.ahead → Reads kind.overreach kind c₀.bump (rule c₀)) :
    Forms [token] c (c.node kind rule) :=
  .node fun c₀ hahead => .first ((Cursor.kind?_congr hahead).trans hkind) (hrule c₀ hahead)

theorem Forms.tokenNode (h : ∀ token ∈ c.kind?, token ∈ firsts) :
    Forms firsts c (Cursor.tokenNode kind c) :=
  .node fun c₀ hahead => .bump (by rwa [Cursor.kind?_congr hahead])

namespace Reads

theorem skipTrivia (h : Reads firsts kind c.skipTrivia c') : Reads firsts kind c c' := by
  intro huncut
  obtain ⟨trees, hemits, hsettles⟩ := h huncut
  exact ⟨_, (Emits.skipTrivia c).trans hemits, hsettles.skipTrivia c.rest_skipTrivia⟩

theorem fromHere {rule : Nat → Rule}
    (hrule : ∀ c₀ : Cursor, c₀.ahead = c.ahead →
      Reads firsts kind c₀ (rule c₀.builder.checkpoint c₀)) :
    Reads firsts kind c (c.fromHere rule) :=
  skipTrivia (hrule c.skipTrivia c.ahead_skipTrivia)

/-- A node around a way from where its checkpoint was taken. -/
theorem wrap (h : Reads firsts kind c c')
    (hrule : ∀ c₀ : Cursor, c₀.rest = c'.rest → Reads firsts' kind c₀ (rule c₀))
    (hover : firsts' ⊆ kind.overreach) (hfirsts : firsts' ⊆ firsts) :
    Reads firsts outer c (c'.wrap c.builder.checkpoint kind rule) := by
  intro huncut
  obtain ⟨trees', hemits', hsettles'⟩ :=
    hrule (c'.startNodeAt c.builder.checkpoint kind) rfl huncut
  obtain ⟨trees, hemits, hsettles⟩ := h (hemits'.isCutOff.symm.trans huncut)
  have hsettles' : Settles firsts' kind c' trees' := fun column into? hstands hadmits =>
    hsettles' column into? (hstands.of_rest rfl) (hadmits.congr rfl)
  exact ⟨_, hemits.wrap hemits', .node <|
    .append hemits hsettles hsettles' hover fun _ => hfirsts⟩

/-- A node around all that comes from a token on. -/
theorem wrapFirst {token : Kind} (hkind : c.kind? = some token)
    (h : Reads kind.overreach kind c.bump c')
    (hrule : ∀ c₀ : Cursor, c₀.rest = c'.rest → Reads kind.overreach kind c₀ (rule c₀)) :
    Reads [token] outer c (c'.wrap c.builder.checkpoint kind rule) := by
  have hfirst : Reads (token :: kind.overreach) kind c c' :=
    (first hkind h).mono (by simp)
  exact (hfirst.wrap hrule (List.Subset.refl _) (List.subset_cons_self _ _)).narrow hkind

end Reads

-- ---------------------------------------------------------------------------
-- Repetition
-- ---------------------------------------------------------------------------

namespace Reads

theorem repeatWhile {more : Cursor → Bool} (hover : firsts ⊆ kind.overreach)
    (round : ∀ c' : Cursor, more c' = true → Reads firsts kind c' (rule c')) :
    Reads firsts kind c (c.repeatWhile more rule) :=
  Cursor.repeatWhile_keeps (fun _ _ => cutOff firsts kind c)
    (fun c' h hmore => h.trans (round c' hmore) hover (List.Subset.refl _)) (refl firsts kind c)

/-- An item behind a comma, and so on. -/
theorem commas {item : Rule} (hitem : ∀ c : Cursor, Reads firsts kind c (item c))
    (hover : .comma :: firsts ⊆ kind.overreach) :
    Reads [.comma] kind c (c.repeatWhile (·.sees .comma) fun c => item c.bump) := by
  rw [List.cons_subset] at hover
  refine repeatWhile (by simpa using hover.1) fun c' hmore => ?_
  exact first (Cursor.sees_iff.mp hmore) ((hitem c'.bump).mono hover.2)

theorem commaSeparated {item : Rule} (hitem : ∀ c : Cursor, Reads firsts kind c (item c))
    (hover : .comma :: firsts ⊆ kind.overreach) :
    Reads kind.overreach kind c (c.commaSeparated item) :=
  ((hitem c).mono (List.cons_subset.mp hover).2).andThen (commas hitem hover)
    (by simpa using (List.cons_subset.mp hover).1)

/-- Items up to a closing bracket, where there may be none. -/
theorem items {item : Rule} {closing : Kind} (hitem : ∀ c : Cursor, Reads firsts kind c (item c))
    (hover : closing :: .comma :: firsts ⊆ kind.overreach) :
    Reads kind.overreach kind c
      ((if c.sees closing then c else c.commaSeparated item).expect closing) := by
  rw [List.cons_subset] at hover
  refine andThen ?_ (expect _) (by simpa using hover.1)
  split
  · exact refl _ _ c
  · exact commaSeparated hitem hover.2

/-- A name, a separator, and what is nested behind it. -/
theorem labelled {inner : Rule} {separator : Kind}
    (hinner : ∀ c : Cursor, Reads firsts kind c (inner c))
    (hover : separator :: firsts ⊆ kind.overreach) (c : Cursor) :
    Reads [.lowerIdent] outer c
      (if c.sees .lowerIdent then c.node kind fun c => c.bump.expectThen separator inner
      else c.error .expectedFieldName) := by
  rw [List.cons_subset] at hover
  split
  · rename_i hname
    refine (Forms.first (Cursor.sees_iff.mp hname) fun c₀ _ => ?_).reads
    exact (expectThen (hinner _) hover.2).mono (by simpa using hover.1)
  · exact (refl _ outer c).error _

/-- What closes right after an opening parenthesis. -/
theorem unit (hkind : c.kind? = some .lParen) (hclose : c.bump.sees .rParen = true) :
    Reads [.lParen] kind c (c.bump.wrap c.builder.checkpoint .unitExpr Cursor.bump) := by
  refine wrapFirst hkind (refl _ _ _) fun c₀ hrest => bump ?_
  rw [Cursor.kind?_congr (Cursor.ahead_congr hrest), Cursor.sees_iff.mp hclose]
  rintro _ ⟨⟩
  exact .head _

/-- The rest of what an opening parenthesis and one inner part start: more parts behind commas make
it a tuple. -/
theorem tupleOrGroup {inner : Rule} {tuple group : Kind} (hkind : c.kind? = some .lParen)
    (hinner : ∀ kind (c : Cursor), Reads firsts kind c (inner c))
    (htuple : .rParen :: .comma :: firsts ⊆ tuple.overreach)
    (hgroup : .rParen :: firsts ⊆ group.overreach) :
    Reads [.lParen] kind c
      (if (inner c.bump).sees .comma then
        (inner c.bump).wrap c.builder.checkpoint tuple fun c =>
          (c.repeatWhile (·.sees .comma) fun c => inner c.bump).expect .rParen
      else (inner c.bump).wrap c.builder.checkpoint group (·.expect .rParen)) := by
  rw [List.cons_subset] at htuple hgroup
  split
  · refine wrapFirst hkind ((hinner tuple _).mono (List.cons_subset.mp htuple.2).2) fun c₀ _ => ?_
    have hcommas := (commas (c := c₀) (hinner tuple) htuple.2).mono
      (by simpa using (List.cons_subset.mp htuple.2).1)
    exact hcommas.andThen (expect _) (by simpa using htuple.1)
  · refine wrapFirst hkind ((hinner group _).mono hgroup.2) fun c₀ _ => ?_
    exact (expect c₀).mono (by simpa using hgroup.1)

end Reads

-- ---------------------------------------------------------------------------
-- Names
-- ---------------------------------------------------------------------------

/-- A way on which everything is settled if it starts right of the first column, nothing passed
over. -/
def ReadsOn (kind : Kind) (c c' : Cursor) : Prop :=
  c'.isCutOff = false → ∃ trees, Emits c trees c' ∧
    ∀ column into?, c.Stands column → column ≠ 0 →
      ∀ arrival ∈ Tree.arrivalsOf kind column into? trees, arrival.IsSettled

theorem ReadsOn.refl (kind : Kind) (c : Cursor) : ReadsOn kind c c :=
  fun _ => ⟨[], .refl c, fun _ _ _ _ _ h => absurd h List.not_mem_nil⟩

theorem Reads.on (h : Reads firsts kind c c') (hahead : c.ahead = c.rest) : ReadsOn kind c c' := by
  intro huncut
  obtain ⟨trees, hemits, hsettles⟩ := h huncut
  refine ⟨trees, hemits, fun column into? hstands hcolumn => hsettles column into? hstands ?_⟩
  intro t ht hzero
  obtain ⟨more, hrest⟩ := List.head?_eq_some_iff.mp (Option.mem_def.mp ht)
  rw [hahead] at hrest
  exact absurd ((hstands.column_eq hrest).symm.trans hzero) hcolumn

/-- A name or a dot, and on with what touches it. -/
theorem Reads.word {token : Kind} (hword : token ∈ [.lowerIdent, .upperIdent, .dot])
    (hkind : c.kind? = some token) (h : ReadsOn kind c.bump c') : Reads [token] kind c c' := by
  intro huncut
  obtain ⟨trees, hemits, hsettled⟩ := h huncut
  obtain ⟨t, more, hahead, rfl⟩ := Cursor.ahead_of_kind? hkind
  have htoken : Settles [t.kind] kind c.skipTrivia [t.leaf] :=
    .single (c.rest_skipTrivia.trans hahead) (.head _)
  have hbump := htoken.skipTrivia c.rest_skipTrivia
  refine ⟨_, (Emits.bump hahead).trans hemits, fun column into? hstands hadmits => ?_⟩
  rw [Tree.arrivalsOf_append]
  refine List.forall_mem_append.mpr ⟨hbump column into? hstands hadmits, ?_⟩
  refine hsettled _ _ (hstands.emits (.bump hahead)) ?_
  have hmem : t ∈ c.rest := by
    rw [← c.trivia_append_ahead, hahead]
    exact List.mem_append_right _ (.head _)
  rw [Tree.textOf_append, Tree.columnAfter_append]
  have htext : Tree.textOf [t.leaf] = t.text.toList := by
    simp [Tree.textOf, Tree.leavesOf, PlacedToken.leaf, Tree.leaves]
  rw [htext]
  exact hstands.unbroken t hmem hword _

/-- Between a dot and a name that touch there is nothing to pass over. -/
theorem Cursor.ahead_of_touches (htouches : c.touches .dot kind = true)
    (hkind : kind.isTrivia = false) : c.ahead = c.rest ∧ c.bump.ahead = c.bump.rest := by
  obtain ⟨dot, name, more, hrest, hdot, rfl⟩ := rest_of_touches htouches
  have hahead : c.ahead = c.rest := by
    rw [ahead, hrest]
    exact List.dropWhile_cons_of_neg (by simp [hdot, Kind.isTrivia])
  refine ⟨hahead, ?_⟩
  rw [ahead, rest_bump, hahead, hrest]
  exact List.dropWhile_cons_of_neg (by simp [hkind])

/-- A dot and the name that touches it. -/
theorem Reads.dotted {token : Kind} (htouches : c.touches .dot token = true)
    (hname : token = .lowerIdent ∨ token = .upperIdent) (h : ReadsOn kind c.bump.bump c') :
    Reads [.dot] kind c c' := by
  have hvisible : token.isTrivia = false := by obtain rfl | rfl := hname <;> rfl
  have hword : token ∈ [.lowerIdent, .upperIdent, .dot] := by obtain rfl | rfl := hname <;> decide
  obtain ⟨hkind, hkind'⟩ := Cursor.kind?_of_touches htouches hvisible
  exact .word (by decide) hkind
    ((Reads.word hword hkind' h).on (Cursor.ahead_of_touches htouches hvisible).2)

/-- A dot and the name that touches it, right behind a name. -/
theorem ReadsOn.segment {token : Kind} (htouches : c.touches .dot token = true)
    (hname : token = .lowerIdent ∨ token = .upperIdent) (h : ReadsOn kind c.bump.bump c') :
    ReadsOn kind c c' := by
  have hvisible : token.isTrivia = false := by obtain rfl | rfl := hname <;> rfl
  exact (Reads.dotted htouches hname h).on (Cursor.ahead_of_touches htouches hvisible).1

end ElmLint.Syntax
