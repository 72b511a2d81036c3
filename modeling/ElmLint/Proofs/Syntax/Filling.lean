import ElmLint.Proofs.Syntax.Spelling

/-!
# Where nodes begin and end

A node is started at a token that is neither white space nor a comment, and the rule inside takes
this token. Only a list of exposed items may end before it has begun, behind the last keyword of a
header or an import. Where no error is recorded, a node also ends with such a token, and it is spelled
as its kind asks for.
-/

namespace ElmLint.Syntax

namespace Tree

/-- Some token is neither white space nor a comment. -/
def IsSignificant (trees : List Tree) : Prop := ∃ leaf ∈ leavesOf trees, leaf.1.isTrivia = false

/-- The first token is neither white space nor a comment. -/
def Begins (trees : List Tree) : Prop :=
  ∃ leaf, (leavesOf trees).head? = some leaf ∧ leaf.1.isTrivia = false

/-- The last token is neither white space nor a comment. -/
def Ends (trees : List Tree) : Prop :=
  ∃ leaf, (leavesOf trees).getLast? = some leaf ∧ leaf.1.isTrivia = false

/-- A list of exposed items of which nothing is there. -/
def noItems : Tree := .node .exposingList []

inductive Filled : Tree → Prop
  | token (kind : Kind) (text : String) : Filled (.token kind text)
  | node {kind : Kind} {children : List Tree} (h : Begins children)
      (hchildren : ∀ child ∈ children, child.Filled) : Filled (.node kind children)
  | header {kind : Kind} {children : List Tree}
      (hkind : kind ∈ [.moduleDeclaration, .importClause]) (h : Begins children)
      (hchildren : ∀ child ∈ children, child.Filled) : Filled (.node kind (children ++ [noItems]))

/-- All nodes in the tree end with tokens that are neither white space nor comments, and are spelled
as they should be. -/
inductive Closed : Tree → Prop
  | token (kind : Kind) (text : String) : Closed (.token kind text)
  | node {kind : Kind} {children : List Tree} (h : Ends children) (hspelt : IsSpelt kind children)
      (hchildren : ∀ child ∈ children, child.Closed) : Closed (.node kind children)

theorem IsSignificant.append_left {trees : List Tree} (h : IsSignificant trees)
    (others : List Tree) : IsSignificant (trees ++ others) := by
  obtain ⟨leaf, hleaf, hkind⟩ := h
  exact ⟨leaf, by rw [leavesOf_append]; exact List.mem_append_left _ hleaf, hkind⟩

theorem IsSignificant.append_right {trees : List Tree} (h : IsSignificant trees)
    (others : List Tree) : IsSignificant (others ++ trees) := by
  obtain ⟨leaf, hleaf, hkind⟩ := h
  exact ⟨leaf, by rw [leavesOf_append]; exact List.mem_append_right _ hleaf, hkind⟩

theorem IsSignificant.ne_nil {trees : List Tree} (h : IsSignificant trees) : leavesOf trees ≠ [] := by
  obtain ⟨leaf, hleaf, -⟩ := h
  exact List.ne_nil_of_mem hleaf

theorem Begins.significant {trees : List Tree} (h : Begins trees) : IsSignificant trees := by
  obtain ⟨leaf, hleaf, hkind⟩ := h
  exact ⟨leaf, List.mem_of_mem_head? hleaf, hkind⟩

theorem Begins.append {trees : List Tree} (h : Begins trees) (others : List Tree) :
    Begins (trees ++ others) := by
  obtain ⟨leaf, hleaf, hkind⟩ := h
  exact ⟨leaf, by rw [leavesOf_append, List.head?_append, hleaf, Option.some_or], hkind⟩

theorem Ends.append {trees : List Tree} (h : Ends trees) (others : List Tree) :
    Ends (others ++ trees) := by
  obtain ⟨leaf, hleaf, hkind⟩ := h
  exact ⟨leaf, by rw [leavesOf_append, List.getLast?_append, hleaf, Option.some_or], hkind⟩

theorem Filled.begins {kind : Kind} {children : List Tree}
    (h : (Tree.node kind children).Filled) : Begins children := by
  cases h with
  | node h => exact h
  | header _ h => exact h.append _

theorem Filled.significant {kind : Kind} {children : List Tree}
    (h : (Tree.node kind children).Filled) : IsSignificant children := h.begins.significant

end Tree

/-- The trees are filled, and when tokens have been asked for, one is significant. -/
structure Fills (least : Nat) (trees : List Tree) : Prop where
  filled : ∀ tree ∈ trees, tree.Filled
  significant : 0 < least → Tree.IsSignificant trees

namespace Fills

variable {least least' : Nat} {trees trees' : List Tree} {kind : Kind}

theorem nil : Fills 0 [] := ⟨nofun, nofun⟩

theorem weaken (h : Fills least trees) (hle : least' ≤ least) : Fills least' trees :=
  ⟨h.filled, fun hpos => h.significant (Nat.lt_of_lt_of_le hpos hle)⟩

theorem append (h : Fills least trees) (h' : Fills least' trees') :
    Fills (least + least') (trees ++ trees') where
  filled := List.forall_mem_append.mpr ⟨h.filled, h'.filled⟩
  significant hpos := by
    by_cases hleast : 0 < least
    · exact (h.significant hleast).append_left _
    · exact (h'.significant (by omega)).append_right _

theorem leaves (tokens : List PlacedToken) : Fills 0 (tokens.map PlacedToken.leaf) where
  filled tree htree := by
    obtain ⟨t, -, rfl⟩ := List.mem_map.mp htree
    exact .token t.kind t.text
  significant := nofun

theorem leaf {t : PlacedToken} (h : t.kind.isTrivia = false) : Fills 1 [t.leaf] where
  filled := List.forall_mem_singleton.mpr (.token t.kind t.text)
  significant _ := ⟨(t.kind, t.text), List.mem_cons_self, h⟩

theorem node (h : Fills least trees) (hbegins : Tree.Begins trees) :
    Fills least [.node kind trees] where
  filled := List.forall_mem_singleton.mpr (.node hbegins h.filled)
  significant _ := by
    rw [Tree.IsSignificant, Emits.leavesOf_node]
    exact hbegins.significant

end Fills

/-- The trees are closed, and end with a token that is neither white space nor a comment, if with
any. -/
structure AreClosed (trees : List Tree) : Prop where
  closed : ∀ tree ∈ trees, tree.Closed
  ends : Tree.leavesOf trees = [] ∨ Tree.Ends trees

namespace AreClosed

variable {trees trees' : List Tree} {kind : Kind}

theorem nil : AreClosed [] := ⟨nofun, .inl rfl⟩

theorem append (h : AreClosed trees) (h' : AreClosed trees') : AreClosed (trees ++ trees') where
  closed := List.forall_mem_append.mpr ⟨h.closed, h'.closed⟩
  ends := by
    obtain hnone | hends := h'.ends
    · rw [Tree.Ends, Tree.leavesOf_append, hnone, List.append_nil]
      exact h.ends
    · exact .inr (hends.append trees)

theorem closed_leaves (tokens : List PlacedToken) :
    ∀ tree ∈ tokens.map PlacedToken.leaf, tree.Closed := by
  intro tree htree
  obtain ⟨t, -, rfl⟩ := List.mem_map.mp htree
  exact .token t.kind t.text

/-- White space and comments in front. -/
theorem behind (h : AreClosed trees) (hne : Tree.leavesOf trees ≠ [])
    (tokens : List PlacedToken) : AreClosed (tokens.map PlacedToken.leaf ++ trees) where
  closed := List.forall_mem_append.mpr ⟨closed_leaves tokens, h.closed⟩
  ends := .inr ((h.ends.resolve_left hne).append _)

theorem leaf {t : PlacedToken} (h : t.kind.isTrivia = false) : AreClosed [t.leaf] where
  closed := List.forall_mem_singleton.mpr (.token t.kind t.text)
  ends := .inr ⟨(t.kind, t.text), rfl, h⟩

theorem node (h : AreClosed trees) (hne : Tree.leavesOf trees ≠ [])
    (hspelt : Tree.IsSpelt kind trees) : AreClosed [.node kind trees] where
  closed := List.forall_mem_singleton.mpr (.node (h.ends.resolve_left hne) hspelt h.closed)
  ends := by
    rw [Tree.Ends, Emits.leavesOf_node]
    exact h.ends

end AreClosed

/-- Trees that are emitted from a token on, nothing passed over, begin with it. -/
theorem Emits.begins {c c' : Cursor} {trees : List Tree} (h : Emits c trees c')
    (hrest : c.ahead = c.rest) (hsignificant : Tree.IsSignificant trees) : Tree.Begins trees := by
  obtain ⟨consumed, hconsumed, hleaves⟩ := h.leaves
  obtain ⟨leaf, hleaf, -⟩ := hsignificant
  cases consumed with
  | nil => simp [hleaves] at hleaf
  | cons t consumed =>
    rw [← hrest] at hconsumed
    exact ⟨(t.kind, t.text), by rw [hleaves]; rfl, Cursor.isTrivia_of_ahead hconsumed⟩

end ElmLint.Syntax
