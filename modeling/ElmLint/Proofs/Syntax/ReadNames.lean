import ElmLint.Proofs.Syntax.Moves
import ElmLint.Proofs.Syntax.Production
import ElmLint.Proofs.Syntax.WholeFile
import ElmLint.Proofs.Syntax.Written

/-!
# The names in a tree

Whatever the text, a qualified name in its tree holds nothing but its segments and the dots between
them, and the last segment tells names of values from those of constructors and types. No move of
the cursor makes anything else of a name.
-/

namespace ElmLint.Syntax

open Grammar
open Tree (Within)

variable {c c' : Cursor} {kind : Kind} {trees parts : List Tree} {b : Builder}

-- ---------------------------------------------------------------------------
-- Trees with well-formed names
-- ---------------------------------------------------------------------------

namespace Tree

/-- Every qualified name in the tree has the parts of a name. -/
def HasNames (tree : Tree) : Prop :=
  ∀ part, Within part tree → part.isNode = true → part.kind.isName = true →
    NameParts part.kind.lastSegment part.children

theorem hasNames_token (kind : Kind) (text : String) : (Tree.token kind text).HasNames := by
  intro part hpart hnode
  cases hpart
  cases hnode

theorem hasNames_of_not_isNode {tree : Tree} (h : tree.isNode = false) : tree.HasNames := by
  cases tree with
  | token kind text => exact hasNames_token kind text
  | node kind children => cases h

theorem hasNames_node (hnode : kind.isName = true → NameParts kind.lastSegment trees)
    (h : ∀ tree ∈ trees, tree.HasNames) : (Tree.node kind trees).HasNames := by
  intro part hpart
  cases hpart with
  | self => exact fun _ => hnode
  | child hmem hpart => exact h _ hmem part hpart

theorem hasNames_name (h : NameParts kind.lastSegment parts) : (Tree.node kind parts).HasNames :=
  hasNames_node (fun _ => h) fun tree htree => hasNames_of_not_isNode (h.isNode_eq_false tree htree)

end Tree

/-- The trees that are built have well-formed names, and no open node is a name. -/
structure Builder.HasNames (b : Builder) : Prop where
  parts : ∀ tree ∈ b.parts, tree.HasNames
  opened : ∀ node ∈ b.opened, node.kind.isName = false

namespace Builder.HasNames

theorem push (h : b.HasNames) (htrees : ∀ tree ∈ trees, tree.HasNames) :
    (b.push trees).HasNames where
  parts := by
    rw [parts_push]
    refine List.forall_mem_append.mpr ⟨fun tree htree => ?_, h.parts⟩
    exact htrees tree (List.mem_reverse.mp htree)
  opened := h.opened

theorem leaves (h : b.HasNames) (tokens : List PlacedToken) :
    (b.push (tokens.map PlacedToken.leaf)).HasNames := by
  refine h.push fun tree htree => ?_
  obtain ⟨t, -, rfl⟩ := List.mem_map.mp htree
  exact Tree.hasNames_token _ _

theorem misuse (h : b.HasNames) : b.misuse.HasNames := ⟨h.parts, h.opened⟩

theorem startNode (h : b.HasNames) (hkind : kind.isName = false) : (b.startNode kind).HasNames :=
  ⟨h.parts, List.forall_mem_cons.mpr ⟨hkind, h.opened⟩⟩

theorem startNodeAt (h : b.HasNames) (hkind : kind.isName = false) (checkpoint : Nat) :
    (b.startNodeAt checkpoint kind).HasNames := by
  unfold Builder.startNodeAt
  split
  · exact ⟨h.parts, List.forall_mem_cons.mpr ⟨hkind, h.opened⟩⟩
  · exact h.misuse

theorem finishNode (h : b.HasNames) : b.finishNode.HasNames := by
  obtain ⟨parts, opened, isMisused, nested⟩ := b
  cases opened with
  | nil => exact h.misuse
  | cons node opened =>
    obtain ⟨hnode, hopened⟩ := List.forall_mem_cons.mp h.opened
    refine ⟨List.forall_mem_cons.mpr ⟨?_, fun tree htree => ?_⟩, hopened⟩
    · refine Tree.hasNames_node (fun hname => ?_) fun tree htree => ?_
      · rw [hnode] at hname
        cases hname
      · exact h.parts tree (List.mem_of_mem_take (List.mem_reverse.mp htree))
    · exact h.parts tree (List.mem_of_mem_drop htree)

end Builder.HasNames

theorem Move.hasNames (hmove : Move c c') (h : c.builder.HasNames) : c'.builder.HasNames := by
  cases hmove with
  | skipTrivia =>
    rw [Cursor.skipTrivia_eq]
    exact h.leaves _
  | bump =>
    cases hahead : c.ahead with
    | nil =>
      rw [Cursor.bump_of_ahead_nil hahead, Cursor.skipTrivia_eq]
      exact h.leaves _
    | cons t tokens =>
      rw [Cursor.bump_of_ahead hahead, ← List.map_singleton, ← List.map_append]
      exact h.leaves _
  | error | cutOff => exact h
  | startNode hkind => exact h.startNode hkind
  | startNodeAt hkind checkpoint => exact h.startNodeAt hkind checkpoint
  | finishNode => exact h.finishNode
  | name _ hname =>
    obtain ⟨parts, hparts, hgives⟩ := hname
    rw [hgives.builder, ← Builder.push_push]
    exact (h.leaves _).push (List.forall_mem_singleton.mpr (Tree.hasNames_name hparts))

theorem hasNames_parse (text : String) : (parse text).tree.HasNames := by
  have hstart : (Cursor.start (tokenize text)).builder.HasNames := ⟨nofun, nofun⟩
  have hend := (isOnWay_atEndOf text).keeps (P := (·.builder.HasNames)) Move.hasNames hstart
  obtain ⟨-, -, hparts, -⟩ := parse_total_lossless text
  exact hend.parts _ (by rw [hparts]; exact List.mem_singleton_self _)

-- ---------------------------------------------------------------------------
-- Dots
-- ---------------------------------------------------------------------------

theorem Tree.leaves_subset_of_within {part tree : Tree} (h : Within part tree) :
    part.leaves ⊆ tree.leaves := by
  induction h with
  | self => exact List.Subset.refl _
  | @child child kind children hmem _ ih =>
    obtain ⟨front, back, rfl⟩ := List.append_of_mem hmem
    rw [leaves, leavesOf_append, leavesOf]
    exact fun leaf hleaf => List.mem_append_right _ (List.mem_append_left _ (ih hleaf))

theorem eq_of_dot_within {text dot : String} (h : Within (.token .dot dot) (parse text).tree) :
    dot = "." := by
  obtain ⟨-, -, -, -, hleaves, -⟩ := parse_total_lossless text
  have hmem : (Kind.dot, dot) ∈ (parse text).tree.leaves :=
    Tree.leaves_subset_of_within h (List.mem_singleton_self _)
  rw [hleaves] at hmem
  obtain ⟨t, ht, heq⟩ := List.mem_map.mp hmem
  obtain ⟨hkind, rfl⟩ := Prod.mk.inj heq
  obtain ⟨c, cs, hkind', htext⟩ := exists_lexeme_of_mem_tokenize ht
  rw [text_of_dot (hkind'.symm.trans hkind)] at htext
  exact String.toList_inj.mp htext

theorem Tree.Within.trans {first second third : Tree} (h : Within first second)
    (h' : Within second third) : Within first third := by
  induction h' with
  | self => exact h
  | child hmem _ ih => exact .child hmem ih

-- ---------------------------------------------------------------------------
-- Results
-- ---------------------------------------------------------------------------

/-- In the tree of any text a qualified name is made of the parts of one: capital segments with a
dot behind each, and a last segment, which starts with a small letter if and only if the name is one
of a value. Its segments, joined with dots, are its text.

While a text is read, looking ahead agrees with what is consumed: the name that is read from a
capital on is one of a value exactly if it was foreseen, and else no segment goes on with it. -/
theorem parse_readsNames (text : String) :
    (∀ name, Within name (parse text).tree → name.isNode = true → name.kind.isName = true →
      NameParts name.kind.lastSegment name.children ∧ name.dottedName = name.text) ∧
    (∀ c : Cursor, c.kind? = some .upperIdent →
      ∃ (kind : Kind) (parts : List Tree), kind.isName = true ∧ NameParts kind.lastSegment parts ∧
        Emits c (c.trivia.map PlacedToken.leaf ++ [.node .valueExpr [.node kind parts]])
          (qualifiedValue c) ∧
        (namesValue c = true ↔ ∃ last, parts.getLast? = some (.token .lowerIdent last)) ∧
        (namesValue c = false → (qualifiedValue c).touches .dot .upperIdent = false ∧
          (qualifiedValue c).touches .dot .lowerIdent = false)) := by
  refine ⟨fun name hname hnode hkind => ?_, fun c hc => ?_⟩
  · have hparts := hasNames_parse text name hname hnode hkind
    cases name with
    | token => cases hnode
    | node kind parts =>
      refine ⟨hparts, hparts.dottedName_eq_text fun dot hdot => ?_⟩
      exact eq_of_dot_within ((Within.child hdot (.self _)).trans hname)
  · obtain ⟨kind, parts, hkind, hparts, hgives, hends⟩ := gives_qualifiedValue hc
    refine ⟨kind, parts, ?_, hparts, hgives.toEmits, ?_, hends⟩
    · rw [hkind]
      split <;> rfl
    · obtain ⟨last, hlast⟩ := hparts.getLast?
      rw [hlast, hkind]
      cases namesValue c <;> simp [Kind.lastSegment]

theorem parse_readsNames_value :
    (Cursor.start (tokenize "Foo.Bar.baz")).kind? = some .upperIdent ∧
      ∃ (kind : Kind) (parts : List Tree), kind.isName = true ∧ NameParts kind.lastSegment parts ∧
        ∃ last, parts.getLast? = some (.token .lowerIdent last) := by
  have hkind : (Cursor.start (tokenize "Foo.Bar.baz")).kind? = some .upperIdent := by
    decide +kernel
  obtain ⟨kind, parts, hname, hparts, -, hlast, -⟩ := (parse_readsNames "x = Foo.Bar.baz").2 _ hkind
  exact ⟨hkind, kind, parts, hname, hparts, hlast.mp (by decide +kernel)⟩

end ElmLint.Syntax
