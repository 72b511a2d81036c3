import ElmLint.Proofs.Syntax.Blanking

/-!
# Two cursors in lockstep

Two cursors with the same view have the same words and gaps in front of them. `Tied c d x y`: from
`c` and `d`, if their views are the same, the ways to `x` and `y` emit the same trees but for white
space and comments, record errors of the same causes, and lead to the same view, unless one of them
is cut off. The lemmas follow how rules are put together.
-/

namespace ElmLint.Syntax

variable {c d x y x' y' : Cursor} {kind : Kind} {f g f' g' : Rule}

-- ---------------------------------------------------------------------------
-- Trees without white space and comments
-- ---------------------------------------------------------------------------

namespace Tree

def isTrivia : Tree → Bool
  | .token kind _ => kind.isTrivia
  | .node _ _ => false

mutual

/-- The tree without the white space and the comments inside it. -/
def withoutTrivia : Tree → Tree
  | .token kind text => .token kind text
  | .node kind children => .node kind (withoutTriviaOf children)

def withoutTriviaOf : List Tree → List Tree
  | [] => []
  | tree :: trees =>
    if tree.isTrivia then withoutTriviaOf trees else tree.withoutTrivia :: withoutTriviaOf trees

end

theorem withoutTriviaOf_append (first second : List Tree) :
    withoutTriviaOf (first ++ second) = withoutTriviaOf first ++ withoutTriviaOf second := by
  induction first with
  | nil => rfl
  | cons tree first ih =>
    rw [List.cons_append, withoutTriviaOf, withoutTriviaOf, ih]
    split <;> rfl

theorem withoutTriviaOf_node (kind : Kind) (trees : List Tree) :
    withoutTriviaOf [.node kind trees] = [.node kind (withoutTriviaOf trees)] := rfl

theorem withoutTriviaOf_trivia (c : Cursor) :
    withoutTriviaOf (c.trivia.map PlacedToken.leaf) = [] := by
  have htrivia : ∀ t ∈ c.trivia, t.kind.isTrivia = true :=
    List.all_eq_true.mp List.all_takeWhile
  generalize c.trivia = tokens at htrivia
  induction tokens with
  | nil => rfl
  | cons t tokens ih =>
    obtain ⟨ht, htokens⟩ := List.forall_mem_cons.mp htrivia
    rw [List.map_cons, withoutTriviaOf, if_pos (by exact ht), ih htokens]

end Tree

-- ---------------------------------------------------------------------------
-- Looking at the same view
-- ---------------------------------------------------------------------------

def PlacedToken.word (t : PlacedToken) : Word := ⟨t.kind, t.text, t.column⟩

theorem kind_eq_of_word {t t' : PlacedToken} (h : t.word = t'.word) : t.kind = t'.kind :=
  congrArg Word.kind h

theorem ne_of_isTrivia {kind kind' : Kind} (h : kind.isTrivia = true)
    (h' : kind'.isTrivia = false) : kind ≠ kind' := by
  rintro rfl
  rw [h] at h'
  cases h'

theorem viewOf_trivia {t : PlacedToken} (ht : t.kind.isTrivia = true) (tokens : List PlacedToken) :
    viewOf (t :: tokens) = gap (viewOf tokens) := if_pos ht

theorem viewOf_word {t : PlacedToken} (ht : t.kind.isTrivia = false) (tokens : List PlacedToken) :
    viewOf (t :: tokens) = some t.word :: viewOf tokens := if_neg (by simp [ht])

theorem viewOf_dropWhile (tokens : List PlacedToken) :
    viewOf (tokens.dropWhile (·.kind.isTrivia)) = (viewOf tokens).dropWhile Option.isNone := by
  induction tokens with
  | nil => rfl
  | cons t tokens ih =>
    cases ht : t.kind.isTrivia with
    | true =>
      rw [List.dropWhile_cons, if_pos ht, viewOf_trivia ht, ih]
      exact (List.dropWhile_idempotent _ _).symm
    | false =>
      rw [List.dropWhile_cons, if_neg (by simp [ht]), viewOf_word ht]
      rfl

theorem viewOf_eq_nil {tokens : List PlacedToken} : viewOf tokens = [] ↔ tokens = [] := by
  refine ⟨fun h => ?_, fun h => h ▸ rfl⟩
  cases tokens with
  | nil => rfl
  | cons t tokens =>
    cases ht : t.kind.isTrivia with
    | true => rw [viewOf_trivia ht] at h; cases h
    | false => rw [viewOf_word ht] at h; cases h

/-- Two lists of tokens of the same view: there are none, both start with a gap, or both start with
the same word. -/
inductive SameStart : List PlacedToken → List PlacedToken → Prop
  | none : SameStart [] []
  | gap {t t' : PlacedToken} (more more' : List PlacedToken) (ht : t.kind.isTrivia = true)
    (ht' : t'.kind.isTrivia = true) : SameStart (t :: more) (t' :: more')
  | word {t t' : PlacedToken} {more more' : List PlacedToken} (ht : t.kind.isTrivia = false)
    (hword : t.word = t'.word) (hmore : viewOf more = viewOf more') :
    SameStart (t :: more) (t' :: more')

theorem sameStart {tokens tokens' : List PlacedToken} (h : viewOf tokens = viewOf tokens') :
    SameStart tokens tokens' := by
  cases tokens with
  | nil =>
    rw [viewOf_eq_nil.mp h.symm]
    exact .none
  | cons t more =>
    cases tokens' with
    | nil => cases viewOf_eq_nil.mp h
    | cons t' more' =>
      cases ht : t.kind.isTrivia <;> cases ht' : t'.kind.isTrivia
      · rw [viewOf_word ht, viewOf_word ht', List.cons.injEq, Option.some.injEq] at h
        exact .word ht h.1 h.2
      · rw [viewOf_word ht, viewOf_trivia ht'] at h
        cases h
      · rw [viewOf_trivia ht, viewOf_word ht'] at h
        cases h
      · exact .gap more more' ht ht'

namespace Cursor

/-- What can be seen from the cursor. -/
def view (c : Cursor) : List (Option Word) := viewOf c.rest

/-- Cursors of the same view have the same word ahead. -/
theorem ahead_cases (h : c.view = d.view) :
    (c.ahead = [] ∧ d.ahead = []) ∨
      ∃ t more t' more', c.ahead = t :: more ∧ d.ahead = t' :: more' ∧
        t.word = t'.word ∧ viewOf more = viewOf more' := by
  have hstart : SameStart c.ahead d.ahead := by
    refine sameStart ?_
    rw [ahead, ahead, viewOf_dropWhile, viewOf_dropWhile]
    exact congrArg _ h
  generalize hc : c.ahead = tokens at hstart
  generalize hd : d.ahead = tokens' at hstart
  cases hstart with
  | none => exact .inl ⟨rfl, rfl⟩
  | word _ hword hmore => exact .inr ⟨_, _, _, _, rfl, rfl, hword, hmore⟩
  | @gap t _ more _ ht _ =>
    have hhead := List.head?_dropWhile_not (fun t : PlacedToken => t.kind.isTrivia) c.rest
    rw [← ahead, hc] at hhead
    exact absurd ht (by simpa using hhead)

theorem next?_of_view (h : c.view = d.view) :
    c.next?.map PlacedToken.word = d.next?.map PlacedToken.word := by
  unfold next?
  obtain ⟨hc, hd⟩ | ⟨t, more, t', more', hc, hd, hword, -⟩ := ahead_cases h
  · rw [hc, hd]
  · rw [hc, hd, List.head?_cons, List.head?_cons, Option.map_some, Option.map_some, hword]

theorem kind?_of_view (h : c.view = d.view) : c.kind? = d.kind? := by
  have hkind (c : Cursor) : c.kind? = (c.next?.map PlacedToken.word).map (·.kind) := by
    rw [Option.map_map]
    rfl
  rw [hkind, hkind, next?_of_view h]

theorem column?_of_view (h : c.view = d.view) : c.column? = d.column? := by
  have hcolumn (c : Cursor) : c.column? = (c.next?.map PlacedToken.word).map (·.column) := by
    rw [Option.map_map]
    rfl
  rw [hcolumn, hcolumn, next?_of_view h]

theorem seesOperator_of_view (h : c.view = d.view) (symbol : String) :
    c.seesOperator symbol = d.seesOperator symbol := by
  have hsees (c : Cursor) : c.seesOperator symbol =
      (c.next?.map PlacedToken.word).any fun word =>
        word.kind == .operatorIdent && word.text == symbol := by
    rw [Option.any_map]
    rfl
  rw [hsees, hsees, next?_of_view h]

theorem atEnd_of_view (h : c.view = d.view) : c.atEnd = d.atEnd := by
  have hend (c : Cursor) : c.atEnd = (c.next?.map PlacedToken.word).isNone := by
    rw [Option.isNone_map]
    rfl
  rw [hend, hend, next?_of_view h]

theorem sees_of_view (h : c.view = d.view) (kind : Kind) : c.sees kind = d.sees kind := by
  rw [sees, sees, kind?_of_view h]

theorem seesAny_of_view (h : c.view = d.view) (kinds : List Kind) :
    c.seesAny kinds = d.seesAny kinds := by
  rw [seesAny, seesAny, kind?_of_view h]

theorem atLayoutEnd_of_view (h : c.view = d.view) (floor : Nat) :
    c.atLayoutEnd floor = d.atLayoutEnd floor := by
  rw [atLayoutEnd, atLayoutEnd, column?_of_view h]

/-! ## Moved in the same way -/

theorem view_skipTrivia (h : c.view = d.view) : c.skipTrivia.view = d.skipTrivia.view := by
  rw [view, view, rest_skipTrivia, rest_skipTrivia, ahead, ahead, viewOf_dropWhile,
    viewOf_dropWhile]
  exact congrArg _ h

theorem view_bump (h : c.view = d.view) : c.bump.view = d.bump.view := by
  rw [view, view, rest_bump, rest_bump]
  obtain ⟨hc, hd⟩ | ⟨t, more, t', more', hc, hd, -, hmore⟩ := ahead_cases h
  · rw [hc, hd]
  · rw [hc, hd]
    exact hmore

theorem secondKind?_of_view (h : c.view = d.view) : c.secondKind? = d.secondKind? := by
  rw [← kind?_bump, ← kind?_bump, kind?_of_view (view_bump h)]

theorem seesBoth_of_view (h : c.view = d.view) (first second : Kind) :
    c.seesBoth first second = d.seesBoth first second := by
  rw [seesBoth, seesBoth, sees_of_view h, secondKind?_of_view h]

/-! ## Tokens that touch -/

theorem touches_of_view (h : c.view = d.view) {first second : Kind}
    (hfirst : first.isTrivia = false) (hsecond : second.isTrivia = false) :
    c.touches first second = d.touches first second := by
  have hstart := sameStart h
  unfold touches
  generalize c.rest = tokens at hstart
  generalize d.rest = tokens' at hstart
  cases hstart with
  | none => rfl
  | gap more more' ht ht' =>
    have hne := beq_eq_false_iff_ne.mpr (ne_of_isTrivia ht hfirst)
    have hne' := beq_eq_false_iff_ne.mpr (ne_of_isTrivia ht' hfirst)
    cases more <;> cases more' <;> simp [hne, hne']
  | word ht hword hmore =>
    cases sameStart hmore with
    | none => rfl
    | gap _ _ hs hs' =>
      have hne := beq_eq_false_iff_ne.mpr (ne_of_isTrivia hs hsecond)
      have hne' := beq_eq_false_iff_ne.mpr (ne_of_isTrivia hs' hsecond)
      simp [hne, hne']
    | word hs hword' _ => simp only [kind_eq_of_word hword, kind_eq_of_word hword']

theorem continuesToValue_of_view {tokens tokens' : List PlacedToken}
    (h : viewOf tokens = viewOf tokens') :
    Grammar.continuesToValue tokens = Grammar.continuesToValue tokens' := by
  have hstop {t : PlacedToken} (ht : t.kind.isTrivia = true) (more : List PlacedToken) :
      Grammar.continuesToValue (t :: more) = false := by
    have hdot : t.kind ≠ .dot := ne_of_isTrivia ht rfl
    cases more <;> simp [Grammar.continuesToValue, hdot]
  have hsegment {t : PlacedToken} (ht : t.kind.isTrivia = true) (dot : PlacedToken)
      (more : List PlacedToken) : Grammar.continuesToValue (dot :: t :: more) = false := by
    have hupper : t.kind ≠ .upperIdent := ne_of_isTrivia ht rfl
    have hlower : t.kind ≠ .lowerIdent := ne_of_isTrivia ht rfl
    simp [Grammar.continuesToValue, hupper, hlower]
  induction tokens using List.twoStepInduction generalizing tokens' with
  | nil =>
    rw [viewOf_eq_nil.mp h.symm]
  | singleton t =>
    cases sameStart h with
    | gap _ _ ht ht' => rw [hstop ht, hstop ht']
    | word _ _ hmore =>
      rw [viewOf_eq_nil.mp hmore.symm]
      rfl
  | cons_cons dot segment tokens ih _ =>
    cases sameStart h with
    | gap _ _ ht ht' => rw [hstop ht, hstop ht']
    | word _ hword hmore =>
      cases sameStart hmore with
      | gap _ _ hs hs' => rw [hsegment hs, hsegment hs']
      | word hs hword' hmore' =>
        simp only [Grammar.continuesToValue, kind_eq_of_word hword, kind_eq_of_word hword',
          ih hmore']

theorem namesValue_of_view (h : c.view = d.view) : Grammar.namesValue c = Grammar.namesValue d := by
  unfold Grammar.namesValue
  obtain ⟨hc, hd⟩ | ⟨t, more, t', more', hc, hd, hword, hmore⟩ := ahead_cases h
  · rw [hc, hd]
  · simp only [hc, hd, kind_eq_of_word hword, continuesToValue_of_view hmore]

end Cursor

-- ---------------------------------------------------------------------------
-- Two ways
-- ---------------------------------------------------------------------------

def Cursor.causes (c : Cursor) : List SyntaxError.Cause := c.errors.map (·.cause)

/-- The cursors moved on in step: with errors of the same causes, to the same view, and if one of
them stood still, so did the other. -/
structure InStep (c d x y : Cursor) : Prop where
  causes : ∃ causes, x.causes = causes ++ c.causes ∧ y.causes = causes ++ d.causes
  view : x.view = y.view
  still : x.rest.length = c.rest.length ↔ y.rest.length = d.rest.length
  left_le : x.rest.length ≤ c.rest.length
  right_le : y.rest.length ≤ d.rest.length

theorem InStep.refl (h : c.view = d.view) : InStep c d c d where
  causes := ⟨[], rfl, rfl⟩
  view := h
  still := iff_of_true rfl rfl
  left_le := Nat.le_refl _
  right_le := Nat.le_refl _

theorem InStep.trans (h : InStep c d x y) (h' : InStep x y x' y') : InStep c d x' y' where
  causes := by
    obtain ⟨causes, hx, hy⟩ := h.causes
    obtain ⟨causes', hx', hy'⟩ := h'.causes
    refine ⟨causes' ++ causes, ?_, ?_⟩
    · rw [hx', hx, List.append_assoc]
    · rw [hy', hy, List.append_assoc]
  view := h'.view
  still := by
    have hstill := h.still
    have hstill' := h'.still
    have hleft := h.left_le
    have hleft' := h'.left_le
    have hright := h.right_le
    have hright' := h'.right_le
    omega
  left_le := h'.left_le.trans h.left_le
  right_le := h'.right_le.trans h.right_le

/-- The cursors moved on in step and emitted the same but for white space and comments. -/
structure Alike (c d x y : Cursor) : Prop extends InStep c d x y where
  trees : ∃ trees trees', Emits c trees x ∧ Emits d trees' y ∧
    Tree.withoutTriviaOf trees = Tree.withoutTriviaOf trees'

namespace Alike

theorem refl (h : c.view = d.view) : Alike c d c d :=
  ⟨.refl h, [], [], .refl c, .refl d, rfl⟩

theorem trans (h : Alike c d x y) (h' : Alike x y x' y') : Alike c d x' y' := by
  obtain ⟨trees₁, trees₁', hleft₁, hright₁, htrees₁⟩ := h.trees
  obtain ⟨trees₂, trees₂', hleft₂, hright₂, htrees₂⟩ := h'.trees
  refine ⟨h.toInStep.trans h'.toInStep, _, _, hleft₁.trans hleft₂, hright₁.trans hright₂, ?_⟩
  rw [Tree.withoutTriviaOf_append, Tree.withoutTriviaOf_append, htrees₁, htrees₂]

theorem still_skipTrivia (h : c.view = d.view) :
    c.skipTrivia.rest.length = c.rest.length ↔ d.skipTrivia.rest.length = d.rest.length := by
  have hmoves {t : PlacedToken} (ht : t.kind.isTrivia = true) (more : List PlacedToken) :
      ((t :: more).dropWhile (·.kind.isTrivia)).length ≠ (t :: more).length := by
    have hle := (List.dropWhile_suffix (l := more) (·.kind.isTrivia)).length_le
    rw [List.dropWhile_cons, if_pos ht, List.length_cons]
    omega
  have hstays {t : PlacedToken} (ht : t.kind.isTrivia = false) (more : List PlacedToken) :
      ((t :: more).dropWhile (·.kind.isTrivia)).length = (t :: more).length := by
    rw [List.dropWhile_cons, if_neg (by simp [ht])]
  have hstart := sameStart h
  simp only [Cursor.rest_skipTrivia, Cursor.ahead]
  generalize c.rest = tokens at hstart
  generalize d.rest = tokens' at hstart
  cases hstart with
  | none => rfl
  | gap more more' ht ht' => exact iff_of_false (hmoves ht more) (hmoves ht' more')
  | word ht hword _ =>
    exact iff_of_true (hstays ht _) (hstays (kind_eq_of_word hword ▸ ht) _)

theorem skipTrivia (h : c.view = d.view) : Alike c d c.skipTrivia d.skipTrivia := by
  have hcauses (c : Cursor) : c.skipTrivia.causes = c.causes := by
    rw [Cursor.skipTrivia_eq]
    rfl
  exact ⟨⟨⟨[], hcauses c, hcauses d⟩, Cursor.view_skipTrivia h, still_skipTrivia h,
    (Emits.skipTrivia c).length_le, (Emits.skipTrivia d).length_le⟩, _, _, .skipTrivia c,
    .skipTrivia d, by rw [Tree.withoutTriviaOf_trivia, Tree.withoutTriviaOf_trivia]⟩

theorem bump (h : c.view = d.view) : Alike c d c.bump d.bump := by
  obtain ⟨hc, hd⟩ | ⟨t, more, t', more', hc, hd, hword, -⟩ := Cursor.ahead_cases h
  · rw [Cursor.bump_of_ahead_nil hc, Cursor.bump_of_ahead_nil hd]
    exact skipTrivia h
  · have hcauses {c : Cursor} {t : PlacedToken} {more : List PlacedToken}
        (hc : c.ahead = t :: more) : c.bump.causes = c.causes := by
      rw [Cursor.bump_of_ahead hc]
      rfl
    have hleaf : t.leaf = t'.leaf := by
      obtain ⟨hkind, htext, -⟩ := Word.mk.inj hword
      rw [PlacedToken.leaf, PlacedToken.leaf, hkind, htext]
    have hlt := Cursor.length_rest_bump hc
    have hlt' := Cursor.length_rest_bump hd
    refine ⟨⟨⟨[], hcauses hc, hcauses hd⟩, Cursor.view_bump h, iff_of_false hlt.ne hlt'.ne,
      hlt.le, hlt'.le⟩, _, _, .bump hc, .bump hd, ?_⟩
    rw [Tree.withoutTriviaOf_append, Tree.withoutTriviaOf_append, Tree.withoutTriviaOf_trivia,
      Tree.withoutTriviaOf_trivia, hleaf]

theorem error (h : c.view = d.view) (cause : SyntaxError.Cause) :
    Alike c d (c.error cause) (d.error cause) :=
  ⟨⟨⟨[cause], rfl, rfl⟩, h, iff_of_true rfl rfl, Nat.le_refl _, Nat.le_refl _⟩, [], [],
    (Emits.refl c).error cause, (Emits.refl d).error cause, rfl⟩

theorem node (h : Alike (c.skipTrivia.startNode kind) (d.skipTrivia.startNode kind) x y)
    (hview : c.view = d.view) : Alike c d x.finishNode y.finishNode := by
  obtain ⟨trees, trees', hleft, hright, htrees⟩ := h.trees
  have hinner : InStep c.skipTrivia d.skipTrivia x.finishNode y.finishNode :=
    ⟨h.causes, h.view, h.still, h.left_le, h.right_le⟩
  refine ⟨(skipTrivia hview).toInStep.trans hinner, _, _, .node hleft, .node hright, ?_⟩
  rw [Tree.withoutTriviaOf_append, Tree.withoutTriviaOf_append, Tree.withoutTriviaOf_trivia,
    Tree.withoutTriviaOf_trivia, Tree.withoutTriviaOf_node, Tree.withoutTriviaOf_node, htrees]

theorem wrap (h : Alike c d x y)
    (h' : Alike (x.startNodeAt c.builder.checkpoint kind) (y.startNodeAt d.builder.checkpoint kind)
      x' y') : Alike c d x'.finishNode y'.finishNode := by
  obtain ⟨trees₁, trees₁', hleft₁, hright₁, htrees₁⟩ := h.trees
  obtain ⟨trees₂, trees₂', hleft₂, hright₂, htrees₂⟩ := h'.trees
  have hinner : InStep x y x'.finishNode y'.finishNode :=
    ⟨h'.causes, h'.view, h'.still, h'.left_le, h'.right_le⟩
  refine ⟨h.toInStep.trans hinner, _, _, hleft₁.wrap hleft₂, hright₁.wrap hright₂, ?_⟩
  rw [Tree.withoutTriviaOf_node, Tree.withoutTriviaOf_node, Tree.withoutTriviaOf_append,
    Tree.withoutTriviaOf_append, htrees₁, htrees₂]

end Alike

/-- The ways are alike from the same view, unless one of them is cut off. Who was cut off before
stays so. -/
structure Tied (c d x y : Cursor) : Prop where
  left : x.isCutOff = false → c.isCutOff = false
  right : y.isCutOff = false → d.isCutOff = false
  alike : c.view = d.view → x.isCutOff = false → y.isCutOff = false → Alike c d x y

/-- The rules do the same from the same view. -/
def Agree (f f' : Rule) : Prop := ∀ c d : Cursor, Tied c d (f c) (f' d)

namespace Tied

theorem refl (c d : Cursor) : Tied c d c d := ⟨id, id, fun h _ _ => .refl h⟩

theorem trans (h : Tied c d x y) (h' : Tied x y x' y') : Tied c d x' y' where
  left hx := h.left (h'.left hx)
  right hy := h.right (h'.right hy)
  alike hview hx hy := by
    have hfirst := h.alike hview (h'.left hx) (h'.right hy)
    exact hfirst.trans (h'.alike hfirst.view hx hy)

/-- On with rules that agree. -/
theorem on (h : Tied c d x y) (hf : Agree f f') : Tied c d (f x) (f' y) := h.trans (hf x y)

theorem cutOff_left (h : y.isCutOff = false → d.isCutOff = false) : Tied c d x.cutOff y :=
  ⟨fun hx => absurd hx Bool.noConfusion, h, fun _ hx _ => absurd hx Bool.noConfusion⟩

theorem cutOff_right (h : x.isCutOff = false → c.isCutOff = false) : Tied c d x y.cutOff :=
  ⟨h, fun hy => absurd hy Bool.noConfusion, fun _ _ hy => absurd hy Bool.noConfusion⟩

/-- A node over all since a checkpoint. -/
theorem wrap (h : Tied c d x y) (hf : Agree f f') :
    Tied c d (x.wrap c.builder.checkpoint kind f) (y.wrap d.builder.checkpoint kind f') := by
  have hrule := hf (x.startNodeAt c.builder.checkpoint kind)
    (y.startNodeAt d.builder.checkpoint kind)
  refine ⟨fun hx => h.left (hrule.left hx), fun hy => h.right (hrule.right hy), ?_⟩
  intro hview hx hy
  have hfirst := h.alike hview (hrule.left hx) (hrule.right hy)
  exact hfirst.wrap (hrule.alike hfirst.view hx hy)

section Conditions

variable {p q : Prop} [Decidable p] [Decidable q] {a b a' b' : Cursor}

theorem isCutOff_of_ite (ha : a.isCutOff = false → x.isCutOff = false)
    (hb : b.isCutOff = false → x.isCutOff = false) :
    (if p then a else b).isCutOff = false → x.isCutOff = false := by
  split
  · exact ha
  · exact hb

/-- A choice that is the same from the same view: first on to where it is made, then either way. -/
theorem choose (h : Tied c d x y) (hcond : Alike c d x y → (p ↔ q))
    (hpos : Tied c d a b) (hneg : Tied c d a' b')
    (hleft : (if p then a else a').isCutOff = false → x.isCutOff = false)
    (hright : (if q then b else b').isCutOff = false → y.isCutOff = false) :
    Tied c d (if p then a else a') (if q then b else b') := by
  refine ⟨fun hx => h.left (hleft hx), fun hy => h.right (hright hy), fun hview hx hy => ?_⟩
  have hiff := hcond (h.alike hview (hleft hx) (hright hy))
  by_cases hp : p
  · rw [if_pos hp] at hx ⊢
    rw [if_pos (hiff.mp hp)] at hy ⊢
    exact hpos.alike hview hx hy
  · rw [if_neg hp] at hx ⊢
    rw [if_neg fun hq => hp (hiff.mpr hq)] at hy ⊢
    exact hneg.alike hview hx hy

theorem ite (h : Tied c d x y) (hcond : Alike c d x y → (p ↔ q))
    (hpos : Tied x y a b) (hneg : Tied x y a' b') :
    Tied c d (if p then a else a') (if q then b else b') :=
  choose h hcond (h.trans hpos) (h.trans hneg) (isCutOff_of_ite hpos.left hneg.left)
    (isCutOff_of_ite hpos.right hneg.right)

theorem wrapIf (h : Tied c d x y) (hcond : Alike c d x y → (p ↔ q)) (hf : Agree f f') :
    Tied c d (if p then x.wrap c.builder.checkpoint kind f else x)
      (if q then y.wrap d.builder.checkpoint kind f' else y) := by
  have hrule := hf (x.startNodeAt c.builder.checkpoint kind)
    (y.startNodeAt d.builder.checkpoint kind)
  exact choose h hcond (h.wrap hf) h (isCutOff_of_ite hrule.left id)
    (isCutOff_of_ite hrule.right id)

theorem wrapEither {kind' : Kind} (h : Tied c d x y) (hcond : Alike c d x y → (p ↔ q))
    (hf : Agree f f') (hg : Agree g g') :
    Tied c d
      (if p then x.wrap c.builder.checkpoint kind f else x.wrap c.builder.checkpoint kind' g)
      (if q then y.wrap d.builder.checkpoint kind f'
       else y.wrap d.builder.checkpoint kind' g') := by
  have hpos := hf (x.startNodeAt c.builder.checkpoint kind)
    (y.startNodeAt d.builder.checkpoint kind)
  have hneg := hg (x.startNodeAt c.builder.checkpoint kind')
    (y.startNodeAt d.builder.checkpoint kind')
  exact choose h hcond (h.wrap hf) (h.wrap hg) (isCutOff_of_ite hpos.left hneg.left)
    (isCutOff_of_ite hpos.right hneg.right)

end Conditions

end Tied

-- ---------------------------------------------------------------------------
-- Rules
-- ---------------------------------------------------------------------------

/-- Where the views differ there is nothing to show but that who was cut off stays so. -/
theorem Agree.of_view (h : ∀ c d : Cursor, c.view = d.view → Tied c d (f c) (f' d)) : Agree f f' :=
  fun c d => ⟨(h c c rfl).left, (h d d rfl).right, fun hview => (h c d hview).alike hview⟩

theorem agree_of_alike (h : ∀ c d : Cursor, c.view = d.view → Alike c d (f c) (f d)) :
    Agree f f := by
  have hkeeps (c : Cursor) : (f c).isCutOff = c.isCutOff := by
    obtain ⟨_, _, hemits, -⟩ := (h c c rfl).trees
    exact hemits.isCutOff
  exact fun c d => ⟨(hkeeps c).symm.trans, (hkeeps d).symm.trans, fun hview _ _ => h c d hview⟩

theorem Agree.ite {p : Cursor → Bool} (hp : ∀ {c d : Cursor}, c.view = d.view → p c = p d)
    (hf : Agree f f') (hg : Agree g g') :
    Agree (fun c => if p c then f c else g c) (fun c => if p c then f' c else g' c) :=
  fun c d => (Tied.refl c d).ite (fun halike => by rw [hp halike.view]) (hf c d) (hg c d)

theorem agree_refl : Agree (fun c => c) (fun c => c) := .refl

theorem agree_skipTrivia : Agree Cursor.skipTrivia Cursor.skipTrivia :=
  agree_of_alike fun _ _ => .skipTrivia

theorem agree_bump : Agree Cursor.bump Cursor.bump := agree_of_alike fun _ _ => .bump

theorem agree_bumpTwice : Agree (fun c => c.bump.bump) (fun c => c.bump.bump) :=
  fun c d => (agree_bump c d).on agree_bump

theorem agree_error (cause : SyntaxError.Cause) :
    Agree (Cursor.error cause) (Cursor.error cause) :=
  agree_of_alike fun _ _ h => .error h cause

theorem agree_expectThen (hf : Agree f f') :
    Agree (Cursor.expectThen kind f) (Cursor.expectThen kind f') := by
  refine .of_view fun c d h => ?_
  unfold Cursor.expectThen
  rw [Cursor.sees_of_view h]
  split
  · exact (agree_bump c d).on hf
  · exact agree_error _ c d

theorem agree_expect (kind : Kind) : Agree (Cursor.expect kind) (Cursor.expect kind) := by
  refine .of_view fun c d h => ?_
  unfold Cursor.expect
  rw [Cursor.sees_of_view h]
  split
  · exact agree_bump c d
  · exact agree_error _ c d

theorem agree_accept (kind : Kind) : Agree (Cursor.accept kind) (Cursor.accept kind) := by
  refine .of_view fun c d h => ?_
  unfold Cursor.accept
  rw [Cursor.sees_of_view h]
  split
  · exact agree_bump c d
  · exact .refl c d

theorem agree_node (hf : Agree f f') : Agree (Cursor.node kind f) (Cursor.node kind f') := by
  intro c d
  have hskip := agree_skipTrivia c d
  have hrule := hf (c.skipTrivia.startNode kind) (d.skipTrivia.startNode kind)
  refine ⟨fun hx => hskip.left (hrule.left hx), fun hy => hskip.right (hrule.right hy), ?_⟩
  exact fun hview hx hy => (hrule.alike (Cursor.view_skipTrivia hview) hx hy).node hview

theorem agree_tokenNode (kind : Kind) : Agree (Cursor.tokenNode kind) (Cursor.tokenNode kind) :=
  agree_node agree_bump

theorem agree_fromHere {rule rule' : Nat → Rule}
    (h : ∀ c d : Cursor, c.view = d.view →
      Tied c d (rule c.builder.checkpoint c) (rule' d.builder.checkpoint d)) :
    Agree (Cursor.fromHere rule) (Cursor.fromHere rule') :=
  .of_view fun c d hview => (agree_skipTrivia c d).trans (h _ _ (Cursor.view_skipTrivia hview))

/-! ## Bounds -/

/-- Rules with a bound, at which they are cut off, agree whatever the bounds are, if they do with
one more whenever they do. -/
theorem agree_bounded {ι : Type} {rule rule' : ι → Nat → Rule}
    (hcut : ∀ i c, rule i 0 c = c.cutOff) (hcut' : ∀ i c, rule' i 0 c = c.cutOff)
    (hstep : ∀ n m, (∀ i, Agree (rule i n) (rule' i m)) →
      ∀ i, Agree (rule i (n + 1)) (rule' i (m + 1))) (n m : Nat) :
    ∀ i, Agree (rule i n) (rule' i m) := by
  -- With the same bound on both sides it is reached on both.
  have hsame (n : Nat) : ∀ i, Agree (rule i n) (rule' i n) := by
    induction n with
    | zero =>
      intro i c d
      rw [hcut, hcut']
      exact .cutOff_left fun hd => absurd hd Bool.noConfusion
    | succ n ih => exact hstep n n ih
  induction n generalizing m with
  | zero =>
    intro i c d
    rw [hcut]
    exact .cutOff_left (hsame m i d d).right
  | succ n ih =>
    cases m with
    | zero =>
      intro i c d
      rw [hcut']
      exact .cutOff_right (hsame (n + 1) i c c).left
    | succ m => exact hstep n m (ih m)

/-- The same for one rule. -/
theorem agree_rounds {rule rule' : Nat → Rule} (hcut : ∀ c, rule 0 c = c.cutOff)
    (hcut' : ∀ c, rule' 0 c = c.cutOff)
    (hstep : ∀ n m, Agree (rule n) (rule' m) → Agree (rule (n + 1)) (rule' (m + 1))) (n m : Nat) :
    Agree (rule n) (rule' m) :=
  @agree_bounded Unit (fun _ => rule) (fun _ => rule') (fun _ => hcut) (fun _ => hcut')
    (fun n m h _ => hstep n m (h ())) n m ()

/-- Rounds that go on with what has come since `c` and `d`. -/
theorem Tied.repeatWhile {more : Cursor → Bool}
    (hmore : ∀ {x y : Cursor}, x.view = y.view → more x = more y)
    (hround : ∀ {x y : Cursor}, Tied c d x y → Tied c d (f x) (f' y))
    (hleft : ∀ x : Cursor, (f x).isCutOff = false → x.isCutOff = false)
    (hright : ∀ y : Cursor, (f' y).isCutOff = false → y.isCutOff = false) (h : Tied c d x y) :
    Tied c d (x.repeatWhile more f) (y.repeatWhile more f') := by
  have hkeeps {f : Rule} (hf : ∀ x : Cursor, (f x).isCutOff = false → x.isCutOff = false)
      (n : Nat) (x : Cursor) :
      (Cursor.repeatWhile.go more f n x).isCutOff = false → x.isCutOff = false :=
    Cursor.repeatWhile_go_keeps (P := fun x' => x'.isCutOff = false → x.isCutOff = false)
      (fun _ _ hcut => absurd hcut Bool.noConfusion) (fun x' h _ huncut => h (hf x' huncut)) n id
  have hgo (n m : Nat) {x y : Cursor} (h : Tied c d x y) :
      Tied c d (Cursor.repeatWhile.go more f n x) (Cursor.repeatWhile.go more f' m y) := by
    induction n generalizing m x y with
    | zero => exact .cutOff_left fun huncut => h.right (hkeeps hright m y huncut)
    | succ n ih =>
      cases m with
      | zero => exact .cutOff_right fun huncut => h.left (hkeeps hleft (n + 1) x huncut)
      | succ m =>
        exact h.choose (fun halike => by rw [hmore halike.view]) (ih m (hround h)) h
          (hkeeps hleft (n + 1) x) (hkeeps hright (m + 1) y)
  exact hgo _ _ h

theorem agree_repeatWhile {more : Cursor → Bool}
    (hmore : ∀ {c d : Cursor}, c.view = d.view → more c = more d) (hf : Agree f f') :
    Agree (Cursor.repeatWhile more f) (Cursor.repeatWhile more f') :=
  fun c d => Tied.repeatWhile hmore (·.on hf) (fun x => (hf x x).left) (fun y => (hf y y).right)
    (.refl c d)

theorem agree_commas (hf : Agree f f') :
    Agree (Cursor.repeatWhile (·.sees .comma) fun c => f c.bump)
      (Cursor.repeatWhile (·.sees .comma) fun c => f' c.bump) :=
  agree_repeatWhile (fun h => Cursor.sees_of_view h _) fun c d => (agree_bump c d).on hf

theorem agree_commaSeparated (hf : Agree f f') :
    Agree (Cursor.commaSeparated f) (Cursor.commaSeparated f') :=
  fun c d => (hf c d).on (agree_commas hf)

/-- Behind the first item in parentheses: more of them after commas, or the closing one. -/
theorem Tied.tupleOrGroup {tuple group : Kind} (h : Tied c d x y) (hf : Agree f f') :
    Tied c d
      (if x.sees .comma then
        x.wrap c.builder.checkpoint tuple fun c =>
          (c.repeatWhile (·.sees .comma) fun c => f c.bump).expect .rParen
      else x.wrap c.builder.checkpoint group (·.expect .rParen))
      (if y.sees .comma then
        y.wrap d.builder.checkpoint tuple fun c =>
          (c.repeatWhile (·.sees .comma) fun c => f' c.bump).expect .rParen
      else y.wrap d.builder.checkpoint group (·.expect .rParen)) := by
  refine h.wrapEither ?_ (fun c d => ?_) (agree_expect .rParen)
  · exact fun halike => by rw [Cursor.sees_of_view halike.view]
  · exact (agree_commas hf c d).on (agree_expect .rParen)

/-- Items up to a closing bracket, where there may be none. -/
theorem Tied.items {closing : Kind} (h : Tied c d x y) (hf : Agree f f') :
    Tied c d ((if x.sees closing then x else x.commaSeparated f).expect closing)
      ((if y.sees closing then y else y.commaSeparated f').expect closing) :=
  (h.ite (fun halike => by rw [Cursor.sees_of_view halike.view]) (.refl x y)
    (agree_commaSeparated hf x y)).on (agree_expect closing)

end ElmLint.Syntax
