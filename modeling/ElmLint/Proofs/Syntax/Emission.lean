import ElmLint.Syntax.Parse
import Mathlib.Data.List.DropRight

/-!
# What rules emit

`Emits c trees c'`: on the way from `c` to `c'` the builder has got `trees` as further parts, their
leaves are the tokens that were consumed, and nothing was cut off. Whatever is open in the builder
stays open, so a node that is started around such a way is finished around it.
-/

namespace ElmLint.Syntax

namespace Builder

/-- Further parts, in order. -/
def push (trees : List Tree) (b : Builder) : Builder :=
  { b with
    parts := trees.reverse ++ b.parts
    nested := .cons (fun start h => by
      have := b.start_le start h
      simp only [List.length_append, ge_iff_le]
      omega) b.nested_opened }

theorem eq_of_fields {b b' : Builder} (hparts : b.parts = b'.parts) (hopened : b.opened = b'.opened)
    (hmisused : b.isMisused = b'.isMisused) : b = b' := by
  cases b
  cases b'
  simp_all

@[simp] theorem parts_push (trees : List Tree) (b : Builder) :
    (b.push trees).parts = trees.reverse ++ b.parts := rfl

@[simp] theorem push_nil (b : Builder) : b.push [] = b := rfl

@[simp] theorem push_push (first second : List Tree) (b : Builder) :
    (b.push first).push second = b.push (first ++ second) :=
  eq_of_fields (by simp) rfl rfl

/-- Misuse is not forgotten. -/
theorem isMisused_of_call {b : Builder} (h : b.isMisused = true) (kind : Kind) (text : String)
    (checkpoint : Nat) :
    (b.token kind text).isMisused = true ∧ (b.startNode kind).isMisused = true ∧
      (b.startNodeAt checkpoint kind).isMisused = true ∧ b.finishNode.isMisused = true := by
  refine ⟨h, h, ?_, ?_⟩
  · unfold startNodeAt
    split
    · exact h
    · rfl
  · obtain ⟨parts, opened, isMisused, nested⟩ := b
    cases opened with
    | nil => rfl
    | cons node opened => exact h

theorem token_eq_push (kind : Kind) (text : String) (b : Builder) :
    b.token kind text = b.push [.token kind text] := rfl

/-- What was added after `front` becomes the children of a node. -/
theorem finishNode_eq (b : Builder) (node : OpenNode) (opened : List OpenNode)
    (trees front : List Tree) (hopened : b.opened = node :: opened)
    (hstart : node.start = front.length) (hparts : b.parts = trees.reverse ++ front) :
    b.finishNode.parts = .node node.kind trees :: front ∧ b.finishNode.opened = opened ∧
      b.finishNode.isMisused = b.isMisused := by
  obtain ⟨parts, opened', isMisused, nested⟩ := b
  subst hopened hparts
  have hlength : (trees.reverse ++ front).length - node.start = trees.reverse.length := by
    simp [hstart]
  refine ⟨?_, rfl, rfl⟩
  simp only [finishNode, hlength, List.take_left, List.drop_left, List.reverse_reverse]

theorem finishNode_startNode (kind : Kind) (trees : List Tree) (b : Builder) :
    ((b.startNode kind).push trees).finishNode = b.push [.node kind trees] := by
  obtain ⟨hparts, hopened, hmisused⟩ := finishNode_eq ((b.startNode kind).push trees)
    ⟨kind, b.parts.length⟩ b.opened trees b.parts rfl rfl rfl
  exact eq_of_fields hparts hopened hmisused

/-- A checkpoint is good for a node as long as parts are added only. -/
theorem accepts_push (trees : List Tree) (b : Builder) : (b.push trees).accepts b.checkpoint := by
  refine ⟨by simp [checkpoint], fun node h => ?_⟩
  exact b.start_le node.start (List.mem_map.mpr ⟨node, List.mem_of_mem_head? h, rfl⟩)

theorem finishNode_startNodeAt (kind : Kind) (first second : List Tree) (b : Builder) :
    (((b.push first).startNodeAt b.checkpoint kind).push second).finishNode =
      b.push [.node kind (first ++ second)] := by
  rw [startNodeAt, dif_pos (accepts_push first b)]
  obtain ⟨hparts, hopened, hmisused⟩ := finishNode_eq
    (push second { b.push first with
      opened := ⟨kind, b.checkpoint⟩ :: b.opened
      nested := nested_of_accepts (accepts_push first b) })
    ⟨kind, b.checkpoint⟩ b.opened (first ++ second) b.parts rfl rfl (by simp)
  exact eq_of_fields hparts hopened hmisused

end Builder

theorem Tree.leavesOf_append (first second : List Tree) :
    leavesOf (first ++ second) = leavesOf first ++ leavesOf second := by
  induction first with
  | nil => rfl
  | cons tree first ih => simp [leavesOf, ih]

namespace PlacedToken

def leaf (t : PlacedToken) : Tree := .token t.kind t.text

theorem leavesOf_leaf (tokens : List PlacedToken) :
    Tree.leavesOf (tokens.map leaf) = tokens.map fun t => (t.kind, t.text) := by
  induction tokens with
  | nil => rfl
  | cons t tokens ih => simp [Tree.leavesOf, leaf, Tree.leaves, ih]

end PlacedToken

namespace Cursor

variable {c c' c'' : Cursor} {kind : Kind}

/-- The white space and comments in front of the next token. -/
def trivia (c : Cursor) : List PlacedToken := c.rest.takeWhile (·.kind.isTrivia)

theorem trivia_append_ahead (c : Cursor) : c.trivia ++ c.ahead = c.rest :=
  List.takeWhile_append_dropWhile

/-- The next token is significant. -/
theorem isTrivia_of_ahead {t : PlacedToken} {tokens : List PlacedToken}
    (h : c.ahead = t :: tokens) : t.kind.isTrivia = false := by
  have hhead := List.head?_dropWhile_not (fun t : PlacedToken => t.kind.isTrivia) c.rest
  rw [show c.rest.dropWhile (·.kind.isTrivia) = t :: tokens from h] at hhead
  simpa using hhead

theorem skipTrivia_go (tokens : List PlacedToken) (textEnd : Nat) (builder : Builder)
    (errors : List SyntaxError) (isCutOff : Bool) :
    skipTrivia.go tokens ⟨tokens, textEnd, builder, errors, isCutOff⟩ =
      ⟨tokens.dropWhile (·.kind.isTrivia), textEnd,
        builder.push ((tokens.takeWhile (·.kind.isTrivia)).map PlacedToken.leaf),
        errors, isCutOff⟩ := by
  induction tokens generalizing builder with
  | nil => simp [skipTrivia.go]
  | cons t tokens ih =>
    rw [skipTrivia.go]
    by_cases ht : t.kind.isTrivia = true
    · simp [ht, ih, Builder.token_eq_push, PlacedToken.leaf]
    · simp [ht]

theorem skipTrivia_eq (c : Cursor) :
    c.skipTrivia =
      { c with rest := c.ahead, builder := c.builder.push (c.trivia.map PlacedToken.leaf) } :=
  skipTrivia_go ..

/-! ## Looking ahead from a moved cursor -/

@[simp] theorem rest_skipTrivia (c : Cursor) : c.skipTrivia.rest = c.ahead := by rw [skipTrivia_eq]

@[simp] theorem ahead_skipTrivia (c : Cursor) : c.skipTrivia.ahead = c.ahead := by
  rw [ahead, rest_skipTrivia]
  exact List.dropWhile_idempotent _ _

theorem bump_of_ahead {t : PlacedToken} {tokens : List PlacedToken} (h : c.ahead = t :: tokens) :
    c.bump =
      { c with
        rest := tokens
        builder := c.builder.push (c.trivia.map PlacedToken.leaf ++ [t.leaf]) } := by
  simp only [bump, rest_skipTrivia, h]
  simp [skipTrivia_eq, Builder.token_eq_push, PlacedToken.leaf]

theorem bump_of_ahead_nil (h : c.ahead = []) : c.bump = c.skipTrivia := by
  simp only [bump, rest_skipTrivia, h]

@[simp] theorem rest_bump (c : Cursor) : c.bump.rest = c.ahead.tail := by
  cases h : c.ahead with
  | nil => rw [bump_of_ahead_nil h, rest_skipTrivia, h, List.tail_nil]
  | cons t tokens => rw [bump_of_ahead h, List.tail_cons]

theorem length_rest_bump {t : PlacedToken} {tokens : List PlacedToken}
    (h : c.ahead = t :: tokens) : c.bump.rest.length < c.rest.length := by
  rw [rest_bump, ← c.trivia_append_ahead, h, List.length_append, List.tail_cons, List.length_cons]
  omega

/-- The second token is the next one when the first is consumed. -/
theorem kind?_bump (c : Cursor) : c.bump.kind? = c.secondKind? := by
  simp only [kind?, secondKind?, next?, second?, ahead, rest_bump]

theorem ahead_of_kind? (h : c.kind? = some kind) :
    ∃ t tokens, c.ahead = t :: tokens ∧ t.kind = kind := by
  cases hahead : c.ahead with
  | nil => simp [kind?, next?, hahead] at h
  | cons t tokens => exact ⟨t, tokens, rfl, by simpa [kind?, next?, hahead] using h⟩

theorem sees_iff : c.sees kind = true ↔ c.kind? = some kind := by
  simp [sees]

theorem kind?_of_seesBoth {first second : Kind} (h : c.seesBoth first second = true) :
    c.kind? = some first ∧ c.bump.kind? = some second := by
  simp only [seesBoth, Bool.and_eq_true, beq_iff_eq] at h
  exact ⟨sees_iff.mp h.1, (kind?_bump c).trans h.2⟩

theorem kind?_of_seesOperator {symbol : String} (h : c.seesOperator symbol = true) :
    c.kind? = some .operatorIdent := by
  simp only [seesOperator, Option.any_eq_true, Bool.and_eq_true, beq_iff_eq] at h
  obtain ⟨t, ht, hkind, -⟩ := h
  rw [kind?, ht, Option.map_some, hkind]

theorem kind?_of_seesAny {kinds : List Kind} (h : c.seesAny kinds = true) :
    ∃ kind ∈ kinds, c.kind? = some kind := by
  simp only [seesAny, Option.any_eq_true] at h
  obtain ⟨kind, hkind, hmem⟩ := h
  exact ⟨kind, by simpa using hmem, hkind⟩

theorem rest_of_touches {first second : Kind} (h : c.touches first second = true) :
    ∃ a b tokens, c.rest = a :: b :: tokens ∧ a.kind = first ∧ b.kind = second := by
  unfold touches at h
  split at h
  · rename_i a b tokens hrest
    simp only [Bool.and_eq_true, beq_iff_eq] at h
    exact ⟨a, b, tokens, hrest, h⟩
  · cases h

/-- Tokens that touch the cursor, the first of them a dot, are the next two. -/
theorem kind?_of_touches (h : c.touches .dot kind = true) (hkind : kind.isTrivia = false) :
    c.kind? = some .dot ∧ c.bump.kind? = some kind := by
  obtain ⟨a, b, tokens, hrest, ha, hb⟩ := rest_of_touches h
  have hahead : c.ahead = a :: b :: tokens := by simp [ahead, hrest, ha, Kind.isTrivia]
  refine ⟨by simp [kind?, next?, hahead, ha], ?_⟩
  simp [kind?_bump, secondKind?, second?, hahead, hb, hkind]

theorem ahead_congr (h : c'.rest = c.rest) : c'.ahead = c.ahead := by
  simp only [ahead, h]

section SameAhead

variable (h : c'.ahead = c.ahead)
include h

theorem kind?_congr : c'.kind? = c.kind? := by rw [kind?, next?, h, kind?, next?]

theorem secondKind?_congr : c'.secondKind? = c.secondKind? := by
  rw [secondKind?, second?, h, secondKind?, second?]

theorem sees_congr : c'.sees kind = c.sees kind := by rw [sees, kind?_congr h, sees]

theorem atEnd_congr : c'.atEnd = c.atEnd := by rw [atEnd, next?, h, atEnd, next?]

end SameAhead

theorem kind?_tokenNode (kind : Kind) (c : Cursor) : (tokenNode kind c).kind? = c.secondKind? := by
  have hahead : (c.skipTrivia.startNode kind).ahead = c.ahead := c.ahead_skipTrivia
  exact (kind?_bump _).trans (secondKind?_congr hahead)

end Cursor

/-! ## Emission -/

structure Emits (c : Cursor) (trees : List Tree) (c' : Cursor) : Prop where
  builder : c'.builder = c.builder.push trees
  leaves : ∃ consumed, c.rest = consumed ++ c'.rest ∧
    Tree.leavesOf trees = consumed.map fun t => (t.kind, t.text)
  errors : c.errors <:+ c'.errors
  isCutOff : c'.isCutOff = c.isCutOff

namespace Emits

variable {c c' c'' : Cursor} {kind : Kind} {trees trees' : List Tree} {rule : Rule}

theorem refl (c : Cursor) : Emits c [] c where
  builder := rfl
  leaves := ⟨[], rfl, rfl⟩
  errors := List.suffix_rfl
  isCutOff := rfl

theorem trans (h : Emits c trees c') (h' : Emits c' trees' c'') :
    Emits c (trees ++ trees') c'' where
  builder := by rw [h'.builder, h.builder, Builder.push_push]
  leaves := by
    obtain ⟨consumed, hrest, hleaves⟩ := h.leaves
    obtain ⟨consumed', hrest', hleaves'⟩ := h'.leaves
    refine ⟨consumed ++ consumed', by rw [hrest, hrest', List.append_assoc], ?_⟩
    rw [Tree.leavesOf_append, hleaves, hleaves', List.map_append]
  errors := h.errors.trans h'.errors
  isCutOff := h'.isCutOff.trans h.isCutOff

/-- Without new errors on the whole way there are none on its parts. -/
theorem errors_eq (h : Emits c trees c') (h' : Emits c' trees' c'') (heq : c''.errors = c.errors) :
    c'.errors = c.errors ∧ c''.errors = c'.errors := by
  have hsuffix := h'.errors
  rw [heq] at hsuffix
  have hfirst := List.IsSuffix.eq_of_length_le hsuffix h.errors.length_le
  exact ⟨hfirst, heq.trans hfirst.symm⟩

/-- What is emitted on a way is seen from its ends. -/
theorem trees_eq (h : Emits c trees c') (h' : Emits c trees' c') : trees = trees' := by
  have hparts := congrArg Builder.parts (h.builder.symm.trans h'.builder)
  simpa using hparts

theorem length_le (h : Emits c trees c') : c'.rest.length ≤ c.rest.length := by
  obtain ⟨consumed, hrest, -⟩ := h.leaves
  simp [hrest]

theorem skipTrivia (c : Cursor) : Emits c (c.trivia.map PlacedToken.leaf) c.skipTrivia := by
  rw [Cursor.skipTrivia_eq]
  exact ⟨rfl, ⟨c.trivia, c.trivia_append_ahead.symm, PlacedToken.leavesOf_leaf _⟩,
    List.suffix_rfl, rfl⟩

theorem bump {t : PlacedToken} {tokens : List PlacedToken} (h : c.ahead = t :: tokens) :
    Emits c (c.trivia.map PlacedToken.leaf ++ [t.leaf]) c.bump := by
  rw [Cursor.bump_of_ahead h]
  refine ⟨rfl, ⟨c.trivia ++ [t], ?_, ?_⟩, List.suffix_rfl, rfl⟩
  · rw [← c.trivia_append_ahead, h, List.append_assoc, List.singleton_append]
  · rw [← PlacedToken.leavesOf_leaf, List.map_append, List.map_singleton]

theorem error (cause : SyntaxError.Cause) (h : Emits c trees c') :
    Emits c trees (c'.error cause) :=
  ⟨h.builder, h.leaves, h.errors.trans (List.suffix_cons _ _), h.isCutOff⟩

theorem leavesOf_node (kind : Kind) (trees : List Tree) :
    Tree.leavesOf [.node kind trees] = Tree.leavesOf trees := by
  simp [Tree.leavesOf, Tree.leaves]

theorem node (h : Emits (c.skipTrivia.startNode kind) trees c') :
    Emits c (c.trivia.map PlacedToken.leaf ++ [.node kind trees]) c'.finishNode := by
  refine (skipTrivia c).trans ⟨?_, ?_, h.errors, h.isCutOff⟩
  · exact (congrArg Builder.finishNode h.builder).trans
      (Builder.finishNode_startNode kind trees c.skipTrivia.builder)
  · rw [leavesOf_node]
    exact h.leaves

/-- A node that starts where `c` was, around what has come since and what is to come. -/
theorem wrap (h : Emits c trees c')
    (h' : Emits (c'.startNodeAt c.builder.checkpoint kind) trees' c'') :
    Emits c [.node kind (trees ++ trees')] c''.finishNode := by
  obtain ⟨consumed, hrest, hleaves⟩ := h.leaves
  obtain ⟨consumed', hrest', hleaves'⟩ := h'.leaves
  refine ⟨?_, ⟨consumed ++ consumed', ?_, ?_⟩, h.errors.trans h'.errors,
    h'.isCutOff.trans h.isCutOff⟩
  · have hbuilder := h'.builder
    simp only [Cursor.startNodeAt, h.builder] at hbuilder
    simp only [Cursor.finishNode, hbuilder, Builder.finishNode_startNodeAt]
  · rw [hrest, List.append_assoc]
    exact congrArg (consumed ++ ·) hrest'
  · rw [leavesOf_node, Tree.leavesOf_append, hleaves, hleaves', List.map_append]

end Emits

/-! ## Repetition -/

/-- What holds at first and is kept by every round, holds in the end, where no more is to come.
Since every round consumes a token, the bound is not reached. -/
theorem Cursor.repeatWhile_induction {more : Cursor → Bool} {rule : Rule} {P : Cursor → Prop}
    (round : ∀ c, P c → more c = true →
      P (rule c) ∧ (rule c).rest.length < c.rest.length)
    (c : Cursor) (h : P c) :
    P (c.repeatWhile more rule) ∧ more (c.repeatWhile more rule) = false := by
  have hgo (rounds : Nat) (c : Cursor) (hlength : c.rest.length < rounds) (h : P c) :
      P (repeatWhile.go more rule rounds c) ∧
        more (repeatWhile.go more rule rounds c) = false := by
    induction rounds generalizing c with
    | zero => omega
    | succ rounds ih =>
      rw [repeatWhile.go]
      split
      · rename_i hmore
        obtain ⟨hnext, hlt⟩ := round c h hmore
        exact ih _ (by omega) hnext
      · rename_i hmore
        exact ⟨h, by simpa using hmore⟩
  exact hgo _ c (Nat.lt_succ_self _) h

/-- What is kept by every round and by being cut off is kept by all of them. -/
theorem Cursor.repeatWhile_go_keeps {c : Cursor} {rule : Rule} {more : Cursor → Bool}
    {P : Cursor → Prop} (hcut : ∀ c, P c → P c.cutOff)
    (round : ∀ c, P c → more c = true → P (rule c)) (rounds : Nat) (h : P c) :
    P (repeatWhile.go more rule rounds c) := by
  induction rounds generalizing c with
  | zero => exact hcut c h
  | succ rounds ih =>
    rw [repeatWhile.go]
    split
    · rename_i hmore
      exact ih (round c h hmore)
    · exact h

theorem Cursor.repeatWhile_keeps {c : Cursor} {rule : Rule} {more : Cursor → Bool}
    {P : Cursor → Prop} (hcut : ∀ c, P c → P c.cutOff)
    (round : ∀ c, P c → more c = true → P (rule c)) (h : P c) : P (c.repeatWhile more rule) :=
  repeatWhile_go_keeps hcut round _ h

end ElmLint.Syntax
