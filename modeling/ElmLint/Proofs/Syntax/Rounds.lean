import ElmLint.Proofs.Syntax.Comments
import ElmLint.Proofs.Syntax.LookAhead

/-!
# A file, item by item

A file is read in rounds, one for each of its items, until no word is left. The rounds up to the
end are determined by where they start. So two texts can be compared round by round: up to the item
where they part, and again from a place on where the same is seen of both.
-/

namespace ElmLint.Syntax

open Grammar
open Production (topLevelKinds)

variable {c d x y e e' : Cursor} {F : Fork} {text : String} {trees front back : List Tree}
  {item : Tree}

/-- The next item of the file is read. -/
inductive Round : Cursor → Cursor → Prop
  | item {c : Cursor} (h : c.atEnd = false) : Round c (fileItem c)

def Rounds : Cursor → Cursor → Prop := Relation.ReflTransGen Round

/-- A round without an error makes the node of an item in the first column. -/
theorem makes_fileItem (hnext : c.atEnd = false) (herrors : (fileItem c).errors = c.errors) :
    (∃ kind ∈ topLevelKinds, Makes 1 c kind (fileItem c)) ∧ c.column? = some 0 := by
  obtain ⟨hitem | ⟨_, -, -, -, hlt⟩, hcolumn⟩ := readsItem_fileItem hnext
  · exact ⟨hitem, hcolumn herrors⟩
  · rw [herrors] at hlt
    exact absurd hlt (Nat.lt_irrefl _)

namespace Rounds

theorem refl (c : Cursor) : Rounds c c := Relation.ReflTransGen.refl

theorem step (h : Rounds c x) (hnext : x.atEnd = false) : Rounds c (fileItem x) :=
  Relation.ReflTransGen.tail h (.item hnext)

theorem moves (h : Rounds c x) : Moves c x := by
  induction h with
  | refl => exact .refl _
  | tail _ hround ih =>
    cases hround with
    | item => exact ih.on isWalk_fileItem

theorem emits (h : Rounds c x) : ∃ trees, Emits c trees x := by
  induction h with
  | refl => exact ⟨[], .refl _⟩
  | tail _ hround ih =>
    cases hround with
    | item hnext =>
      obtain ⟨trees, htrees⟩ := ih
      obtain ⟨further, hfurther, -⟩ := (readsItem_fileItem hnext).1.emits
      exact ⟨_, htrees.trans hfurther⟩

/-- From the end no round goes on. -/
theorem eq_of_atEnd (h : Rounds c x) (hend : c.atEnd = true) : x = c := by
  obtain rfl | ⟨_, ⟨hnext⟩, -⟩ := h.cases_head
  · rfl
  · rw [hend] at hnext
    cases hnext

/-- Whatever is reached is on the way to the end. -/
theorem onward (h : Rounds c x) (he : Rounds c e) (hend : e.atEnd = true) : Rounds x e := by
  have hunique : Relator.RightUnique Round := by
    rintro _ _ _ ⟨-⟩ ⟨-⟩
    rfl
  obtain hx | hx := Relation.ReflTransGen.total_of_right_unique hunique h he
  · exact hx
  · rw [Rounds.eq_of_atEnd hx hend]
    exact .refl e

/-- What is emitted on the way to a node, and the round that makes it. -/
theorem exists_item (h : Rounds c e) (hemits : Emits c (front ++ item :: back) e)
    (hnode : item.isNode = true) (herrors : e.errors = c.errors) :
    ∃ x trees, Rounds c x ∧ x.atEnd = false ∧ Rounds (fileItem x) e ∧ Emits c trees x ∧
      trees ++ x.trivia.map PlacedToken.leaf = front ∧
      Emits x (x.trivia.map PlacedToken.leaf ++ [item]) (fileItem x) := by
  induction h using Relation.ReflTransGen.head_induction_on generalizing front with
  | refl => simpa using hemits.trees_eq (.refl _)
  | @head c _ hround hrest ih =>
    cases hround with
    | item hnext =>
      obtain ⟨trees, htrees⟩ := Rounds.emits hrest
      obtain ⟨further, hfirst, -⟩ := (readsItem_fileItem hnext).1.emits
      obtain ⟨hsame, hsame'⟩ := hfirst.errors_eq htrees herrors
      obtain ⟨⟨kind, -, children, hmakes, -⟩, -⟩ := makes_fileItem hnext hsame
      have hall := hemits.trees_eq (hmakes.trans htrees)
      rw [List.append_assoc, List.singleton_append] at hall
      -- white space and comments are no nodes
      have hleaf : ∀ tree ∈ c.trivia.map PlacedToken.leaf, tree.isNode = false := by
        rintro _ htree
        obtain ⟨t, -, rfl⟩ := List.mem_map.mp htree
        rfl
      have hfound (hitem : item = .node kind children) 
          (hfront : front = c.trivia.map PlacedToken.leaf) :
          ∃ x trees, Rounds c x ∧ x.atEnd = false ∧ Rounds (fileItem x) e ∧ Emits c trees x ∧
            trees ++ x.trivia.map PlacedToken.leaf = front ∧
            Emits x (x.trivia.map PlacedToken.leaf ++ [item]) (fileItem x) :=
        ⟨c, [], .refl c, hnext, hrest, .refl c, hfront.symm, hitem ▸ hmakes⟩
      obtain ⟨between, hleaves, hbehind⟩ | ⟨between, hfront, hbehind⟩ :=
        List.append_eq_append_iff.mp hall
      · cases between with
        | nil => exact hfound (List.cons.inj hbehind).1 (by simpa using hleaves.symm)
        | cons first between =>
          obtain ⟨rfl, -⟩ := List.cons.inj hbehind
          rw [hleaf item (by simp [hleaves])] at hnode
          cases hnode
      · cases between with
        | nil => exact hfound (List.cons.inj hbehind).1.symm (by simpa using hfront)
        | cons first between =>
          obtain ⟨rfl, rfl⟩ := List.cons.inj hbehind
          obtain ⟨x, trees, hx, hat, hend, hemits', hall', hitem⟩ := ih htrees hsame'
          refine ⟨x, _, .head (.item hnext) hx, hat, hend, hmakes.trans hemits', ?_, hitem⟩
          rw [List.append_assoc, hall', hfront, List.append_assoc, List.singleton_append]

/-- Up to the place where two texts part, the same rounds are gone through. -/
theorem abreast (h : Rounds c x) (hcd : F.Abreast c d) (hspares : F.Spares x) (he : Rounds d e)
    (hend : e.atEnd = true) (huncut : e.isCutOff = false) :
    ∃ y, Rounds d y ∧ F.Abreast x y := by
  induction h with
  | refl => exact ⟨d, .refl d, hcd⟩
  | @tail x x' hx hround ih =>
    cases hround with
    | item hnext =>
      obtain ⟨y, hy, habreast⟩ := ih (hspares.of_moves (isWalk_fileItem x))
      have hround : Rounds d (fileItem y) := hy.step (habreast.atEnd_eq ▸ hnext)
      have huncut' := (hround.onward he hend).moves.uncut huncut
      exact ⟨fileItem y, hround, Fork.paced_fileItem.pace habreast hspares huncut'⟩

/-- Where the same is seen of two texts, the same rounds are gone through to their ends. -/
theorem alike (h : Rounds c e) (h' : Rounds d e') (hview : c.view = d.view)
    (hend : e.atEnd = true) (hend' : e'.atEnd = true) (huncut : e.isCutOff = false)
    (huncut' : e'.isCutOff = false) : Alike c d e e' := by
  induction h using Relation.ReflTransGen.head_induction_on generalizing d with
  | refl =>
    rw [h'.eq_of_atEnd (Cursor.atEnd_of_view hview ▸ hend)]
    exact .refl hview
  | @head c _ hround hrest ih =>
    cases hround with
    | item hnext =>
      have hnext' : d.atEnd = false := Cursor.atEnd_of_view hview ▸ hnext
      have hround' : Rounds (fileItem d) e' := ((refl d).step hnext').onward h' hend'
      have hfirst : Alike c d (fileItem c) (fileItem d) := (agree_fileItem c d).alike hview
        ((show Rounds _ e from hrest).moves.uncut huncut) (hround'.moves.uncut huncut')
      exact hfirst.trans (ih hround' hfirst.view)

end Rounds

-- ---------------------------------------------------------------------------
-- Whole texts
-- ---------------------------------------------------------------------------

/-- The rounds over a whole text, up to the cursor `e`. -/
structure ReadsText (text : String) (e : Cursor) : Prop where
  rounds : Rounds (.beforeItems text) e
  atEnd : e.atEnd = true
  behind : Cursor.behindItems text = e.skipTrivia

theorem exists_readsText (text : String) : ∃ e, ReadsText text e := by
  have hround (c : Cursor) (h : Rounds (.beforeItems text) c) (hmore : (!c.atEnd) = true) :
      Rounds (.beforeItems text) (fileItem c) ∧ (fileItem c).rest.length < c.rest.length := by
    have hnext : c.atEnd = false := by simpa using hmore
    exact ⟨h.step hnext, ReadsItems.length_lt (readsItem_fileItem hnext).1⟩
  obtain ⟨hrounds, hend⟩ := Cursor.repeatWhile_induction hround _ (Rounds.refl _)
  exact ⟨_, hrounds, by simpa using hend, rfl⟩

namespace ReadsText

theorem uncut (h : ReadsText text e) : e.isCutOff = false := by
  have huncut := isCutOff_behindItems text
  rwa [h.behind, Cursor.skipTrivia_eq] at huncut

theorem ok_iff (h : ReadsText text e) : (parse text).ok = true ↔ e.errors = [] := by
  have herrors : (parse text).errors = (Cursor.behindItems text).errors.reverse := rfl
  rw [Parse.ok, herrors, List.isEmpty_reverse, List.isEmpty_iff, h.behind, Cursor.skipTrivia_eq]

/-- Nothing is left, and the items are all that was emitted. -/
theorem rest_eq_nil (h : ReadsText text e) : (Cursor.behindItems text).rest = [] := by
  rw [h.behind, Cursor.rest_skipTrivia]
  simpa [Cursor.atEnd, Cursor.next?] using h.atEnd

/-- The round that makes an item of the file, and what is ahead of it. -/
theorem exists_item (h : ReadsText text e) (herrors : e.errors = [])
    (htree : (parse text).tree = .node .file (front ++ item :: back)) (hnode : item.isNode = true) :
    ∃ x, Rounds (.beforeItems text) x ∧ x.atEnd = false ∧ Rounds (fileItem x) e ∧
      x.ahead <:+ (Cursor.beforeItems text).rest ∧
      x.ahead.length = (Tree.leavesOf (item :: back)).length ∧
      (fileItem x).rest.length = (Tree.leavesOf back).length := by
  obtain ⟨trees, htrees⟩ := h.rounds.emits
  have hwhole := htrees.trans (.skipTrivia e)
  rw [← h.behind] at hwhole
  have hall : front ++ item :: back = trees ++ e.trivia.map PlacedToken.leaf :=
    (Tree.node.inj (htree.symm.trans (tree_parse hwhole))).2
  have hleaf : item ∉ e.trivia.map PlacedToken.leaf := fun hmem => by
    obtain ⟨t, -, rfl⟩ := List.mem_map.mp hmem
    cases hnode
  obtain ⟨back', rfl⟩ : ∃ back', trees = front ++ item :: back' := by
    obtain ⟨more, hmore, hitem⟩ | ⟨more, -, hitem⟩ := List.append_eq_append_iff.mp hall
    · cases more with
      | nil =>
        rw [List.nil_append] at hitem
        exact absurd (hitem ▸ List.mem_cons_self) hleaf
      | cons first more =>
        obtain ⟨rfl, -⟩ := List.cons.inj hitem
        exact ⟨more, hmore⟩
    · exact absurd (hitem ▸ by simp) hleaf
  obtain ⟨x, treesBefore, hx, hnext, honward, hbefore, rfl, hitem⟩ :=
    h.rounds.exists_item htrees hnode herrors
  refine ⟨x, hx, hnext, honward, (List.dropWhile_suffix _).trans hx.moves.rest_suffix, ?_⟩
  -- what is left there are the leaves of the trees from the item on
  have hlengths {c c' : Cursor} {trees : List Tree} (h : Emits c trees c') :
      c.rest.length = (Tree.leavesOf trees).length + c'.rest.length := by
    obtain ⟨consumed, hrest, hleaves⟩ := h.leaves
    rw [hrest, hleaves, List.length_append, List.length_map]
  have hall' := hlengths hwhole
  have hbefore' := hlengths (hbefore.trans (.skipTrivia x))
  have hskip := hlengths (.skipTrivia x)
  have hitem' := hlengths hitem
  rw [← hall, h.rest_eq_nil] at hall'
  rw [Cursor.rest_skipTrivia] at hbefore' hskip
  simp only [Tree.leavesOf_append, Tree.leavesOf, List.length_append, List.length_nil]
    at hall' hbefore' hitem' ⊢
  omega

end ReadsText

/-- The kinds of words that items start with. -/
def Kind.itemStarts : List Kind :=
  [.moduleKw, .portKw, .importKw, .typeKw, .lowerIdent]

/-- An item may start with the next word, if there is one. -/
def StartsItem (c : Cursor) : Prop := ∀ t ∈ c.next?, t.column = 0 ∧ t.kind ∈ Kind.itemStarts

/-- Any other word is an error. -/
theorem errors_topLevelItem_lt {kind : Kind} (hkind : c.kind? = some kind)
    (hstart : kind ∉ Kind.itemStarts) : c.errors.length < (topLevelItem c).errors.length := by
  have hnext : c.atEnd = false := by
    obtain ⟨t, tokens, hahead, -⟩ := Cursor.ahead_of_kind? hkind
    rw [Cursor.atEnd, Cursor.next?, hahead]
    rfl
  have hrecover : topLevelItem c = recover (.unexpectedToken (some kind)) c := by
    rw [topLevelItem, hkind]
    cases kind <;> first | rfl | exact absurd (by decide) hstart
  obtain ⟨-, -, -, -, herrors⟩ := fails_recover (.unexpectedToken (some kind)) hnext
  rwa [hrecover]

theorem startsItem_of_fileItem (herrors : (fileItem c).errors = c.errors) : StartsItem c := by
  intro t ht
  have hnext : c.atEnd = false := by simp [Cursor.atEnd, Option.mem_def.mp ht]
  have hcolumn : c.column? = some t.column := by rw [Cursor.column?, Option.mem_def.mp ht]; rfl
  have hkind : c.kind? = some t.kind := by rw [Cursor.kind?, Option.mem_def.mp ht]; rfl
  have hzero := (makes_fileItem hnext herrors).2
  refine ⟨Option.some.inj (hcolumn.symm.trans hzero), ?_⟩
  by_contra hstart
  have hlt := errors_topLevelItem_lt hkind hstart
  rw [fileItem, if_pos (by simp [hzero])] at herrors
  dsimp only at herrors
  split at herrors
  · rename_i hstuck
    simp only [Bool.and_eq_true, Bool.not_eq_true'] at hstuck
    obtain ⟨-, -, -, -, hmore⟩ := fails_recover (.stuckOnToken (topLevelItem c).kind?) hstuck.2
    rw [herrors] at hmore
    exact absurd hlt (Nat.lt_asymm hmore)
  · rw [herrors] at hlt
    exact absurd hlt (Nat.lt_irrefl _)

theorem Rounds.errors_eq_nil (h : Rounds c e) (herrors : e.errors = []) : c.errors = [] := by
  obtain ⟨trees, hemits⟩ := h.emits
  exact List.suffix_nil.mp (herrors ▸ hemits.errors)

theorem Rounds.startsItem (h : Rounds c e) (hend : e.atEnd = true) (herrors : e.errors = []) :
    StartsItem c := by
  cases hnext : c.atEnd with
  | true =>
    intro t ht
    rw [Cursor.atEnd, Option.mem_def.mp ht] at hnext
    cases hnext
  | false =>
    have hround : Rounds (fileItem c) e := ((Rounds.refl c).step hnext).onward h hend
    exact startsItem_of_fileItem
      ((hround.errors_eq_nil herrors).trans (h.errors_eq_nil herrors).symm)

/-- Two texts that part in an item: the second parses, too, when the item is read up to a place
from which the same is seen. -/
theorem ok_of_fork {edited : String} (hok : (parse text).ok = true)
    (htree : (parse text).tree = .node .file (front ++ item :: back)) (hnode : item.isNode = true)
    (habreast : F.Abreast (.beforeItems text) (.beforeItems edited))
    (hplace : (Tree.leavesOf (item :: back)).length = (F.kept ++ F.left).length)
    (hitem : ∀ x y, F.Abreast x y → x.ahead = F.kept ++ F.left →
      (fileItem x).rest.length = (Tree.leavesOf back).length →
      (fileItem x).errors = x.errors → (fileItem y).errors = y.errors ∧
        ((fileItem x).view = (fileItem y).view ∨
          (fileItem x).atEnd = true ∧ (fileItem y).atEnd = true)) :
    (parse edited).ok = true := by
  obtain ⟨e, he⟩ := exists_readsText text
  obtain ⟨e', he'⟩ := exists_readsText edited
  have herrors : e.errors = [] := he.ok_iff.mp hok
  obtain ⟨x, hx, hnext, honward, hsuffix, hlength, hbehind⟩ := he.exists_item herrors htree hnode
  have hahead : x.ahead = F.kept ++ F.left := by
    obtain ⟨_, ⟨passed, rfl⟩, hrest, -⟩ := habreast
    have hkept : F.kept ++ F.left <:+ (Cursor.beforeItems text).rest :=
      ⟨passed, by rw [hrest, List.append_assoc]⟩
    have hle := hlength.trans hplace
    exact (List.suffix_of_suffix_length_le hsuffix hkept hle.le).eq_of_length hle
  have hspares : F.Spares x :=
    ⟨((isWalk_fileItem x).uncut (honward.moves.uncut he.uncut)),
      hahead ▸ (List.dropWhile_suffix _).length_le⟩
  obtain ⟨y, hy, hxy⟩ := hx.abreast habreast hspares he'.rounds he'.atEnd he'.uncut
  have honward' : Rounds (fileItem y) e' :=
    (hy.step (hxy.atEnd_eq ▸ hnext)).onward he'.rounds he'.atEnd
  have hfile : (fileItem x).errors = [] := honward.errors_eq_nil herrors
  have hx₀ : x.errors = [] := (((Rounds.refl x).step hnext).errors_eq_nil hfile)
  obtain ⟨hsame, hseen⟩ := hitem x y hxy hahead hbehind (hfile.trans hx₀.symm)
  have hy₀ : (fileItem y).errors = [] := by
    obtain ⟨_, -, -, rfl⟩ := hxy
    exact hsame.trans hx₀
  refine he'.ok_iff.mpr ?_
  obtain hview | ⟨-, hend⟩ := hseen
  · obtain ⟨causes, hcauses, hcauses'⟩ :=
      (honward.alike honward' hview he.atEnd he'.atEnd he.uncut he'.uncut).causes
    have hnone : causes = [] := by
      have hall : causes ++ (fileItem x).causes = [] := by
        rw [← hcauses, Cursor.causes, herrors]
        rfl
      exact (List.append_eq_nil_iff.mp hall).1
    simpa [hnone, Cursor.causes, hy₀] using hcauses'
  · rw [honward'.eq_of_atEnd hend, hy₀]

end ElmLint.Syntax
