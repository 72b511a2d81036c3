import ElmLint.Proofs.Syntax.Gaps
import ElmLint.Proofs.Syntax.Rounds

/-!
# Reading an import

What an import is made of is told by its words alone. So where the words behind a cursor are known,
it is known how far an import is read from there, and two imports with the same list of exposed
items behind them are read to the same place.
-/

namespace ElmLint.Syntax

open Grammar

variable {c c' c'' d : Cursor} {f g : Rule} {kind : Kind} {t keyword : PlacedToken}
  {rest rest' gap name : List PlacedToken} {parts : List Tree}
  {kinds kinds' others others' : List Kind}

-- ---------------------------------------------------------------------------
-- Where a rule arrives
-- ---------------------------------------------------------------------------

/-- Up to `rest` everything is consumed, and no error is recorded. -/
structure Arrives (c : Cursor) (rest : List PlacedToken) (c' : Cursor) : Prop where
  rest_eq : c'.rest = rest
  errors_eq : c'.errors = c.errors

namespace Arrives

theorem trans (h : Arrives c rest c') (h' : Arrives c' rest' c'') : Arrives c rest' c'' :=
  ⟨h'.rest_eq, h'.errors_eq.trans h.errors_eq⟩

theorem bump (h : c.ahead = t :: rest) : Arrives c rest c.bump := by
  refine ⟨?_, c.errors_bump⟩
  rw [Cursor.rest_bump, h, List.tail_cons]

theorem expect (h : c.ahead = t :: rest) (hkind : t.kind = kind) :
    Arrives c rest (c.expect kind) := by
  have hsees : c.sees kind = true := by
    rw [Cursor.sees_iff, Cursor.kind?, Cursor.next?, h]
    exact congrArg some hkind
  rw [Cursor.expect, if_pos hsees]
  exact .bump h

theorem node (h : ∀ c₀ : Cursor, c₀.ahead = c.ahead → Arrives c₀ rest (f c₀)) :
    Arrives c rest (c.node kind f) := by
  obtain ⟨hrest, herrors⟩ := h (c.skipTrivia.startNode kind) c.ahead_skipTrivia
  refine ⟨hrest, herrors.trans ?_⟩
  rw [Cursor.skipTrivia_eq]
  rfl

end Arrives

theorem Cursor.ahead_of_rest (h : c.rest = gap ++ t :: rest)
    (hgap : ∀ t ∈ gap, t.kind.isTrivia = true) (ht : t.kind.isTrivia = false) :
    c.ahead = t :: rest := by
  rw [ahead, h, (Fork.dropWhile_passed hgap ht).1]

/-- Segments that start with a capital, with dots between them. -/
inductive NameKinds : List Kind → Prop
  | last : NameKinds [.upperIdent]
  | segment {kinds : List Kind} (h : NameKinds kinds) : NameKinds (.upperIdent :: .dot :: kinds)

theorem NameParts.nameKinds (h : NameParts .upperIdent parts) :
    NameKinds ((Tree.leavesOf parts).map Prod.fst) := by
  induction h with
  | last => exact .last
  | segment _ _ _ ih => exact .segment ih

theorem NameKinds.head_eq (h : NameKinds kinds) : kinds.head? = some .upperIdent := by
  cases h <;> rfl

/-- A name ends where no segment follows. -/
theorem NameKinds.rest_eq (h : NameKinds kinds) (h' : NameKinds kinds')
    (hall : kinds ++ others = kinds' ++ others') (hdot : others.head? ≠ some .dot)
    (hsegment : ∀ more, others' ≠ .dot :: .upperIdent :: more) : kinds' = kinds := by
  induction h generalizing kinds' with
  | last =>
    cases h' with
    | last => rfl
    | segment =>
      obtain ⟨-, rfl⟩ := List.cons.inj hall
      exact absurd rfl hdot
  | @segment kinds hkinds ih =>
    cases h' with
    | last =>
      obtain ⟨more, rfl⟩ := List.head?_eq_some_iff.mp hkinds.head_eq
      obtain ⟨-, rfl⟩ := List.cons.inj hall
      exact absurd rfl (hsegment _)
    | segment hkinds' =>
      rw [ih hkinds' (List.cons.inj (List.cons.inj hall).2).2]

theorem arrives_upperCaseName (hname : NameKinds (name.map (·.kind)))
    (hahead : c.ahead = name ++ rest) (hdot : ∀ t ∈ rest.head?, t.kind ≠ .dot) :
    Arrives c rest (upperCaseName c) := by
  have hkind : c.kind? = some .upperIdent := by
    obtain ⟨t, more, rfl, ht, -⟩ :=
      List.map_eq_cons_iff.mp (List.head?_eq_some_iff.mp hname.head_eq).choose_spec
    rw [Cursor.kind?, Cursor.next?, hahead]
    exact congrArg some ht
  obtain ⟨parts, hparts, hgives⟩ := givesName_upperCaseName hkind
  obtain ⟨consumed, hrest, hleaves⟩ := hgives.leaves
  rw [Tree.leavesOf_append, PlacedToken.leavesOf_leaf] at hleaves
  obtain ⟨passed, read, rfl, hpassed, hread⟩ := List.map_eq_append_iff.mp hleaves.symm
  have htrivia : passed.length = c.trivia.length := by simpa using congrArg List.length hpassed
  rw [← c.trivia_append_ahead, List.append_assoc] at hrest
  obtain ⟨-, hsplit⟩ := List.append_inj hrest htrivia.symm
  rw [hahead] at hsplit
  have hreadKinds : NameKinds (read.map (·.kind)) := by
    have hkinds := hparts.nameKinds
    rwa [show Tree.leavesOf parts = read.map fun t => (t.kind, t.text) by
      simpa [Tree.leavesOf, Tree.leaves] using hread.symm, List.map_map] at hkinds
  have hall : name.map (·.kind) ++ rest.map (·.kind) =
      read.map (·.kind) ++ (upperCaseName c).rest.map (·.kind) := by
    rw [← List.map_append, hsplit, List.map_append]
  have hsame := hname.rest_eq hreadKinds hall ?_ ?_
  · have hlength : name.length = read.length := by simpa using (congrArg List.length hsame).symm
    exact ⟨(List.append_inj hsplit hlength).2.symm, hgives.errors_eq⟩
  · cases rest with
    | nil => simp
    | cons t rest => simpa using hdot t rfl
  · intro more hmore
    obtain ⟨dot, tokens, htokens, hdotKind, hsegment⟩ := List.map_eq_cons_iff.mp hmore
    obtain ⟨segment, tokens, rfl, hsegmentKind, -⟩ := List.map_eq_cons_iff.mp hsegment
    have htouches := (touches_upperCaseName hkind).1
    rw [Cursor.touches, htokens] at htouches
    simp [hdotKind, hsegmentKind] at htouches

theorem arrives_asClause (hahead : c.ahead = keyword :: (gap ++ t :: rest))
    (hgap : ∀ t ∈ gap, t.kind.isTrivia = true) (ht : t.kind = .upperIdent) :
    Arrives c rest (asClause c) := by
  refine .node fun c₀ hc₀ => ?_
  have hbump : Arrives c₀ (gap ++ t :: rest) c₀.bump := .bump (hc₀.trans hahead)
  refine hbump.trans (.expect (Cursor.ahead_of_rest hbump.rest_eq hgap ?_) ht)
  rw [ht]
  rfl

-- ---------------------------------------------------------------------------
-- The same tokens elsewhere
-- ---------------------------------------------------------------------------

/-- The same tokens are left, wherever they stand, and as many errors are recorded. -/
structure Alongside (c d : Cursor) : Prop where
  rest : c.rest.map PlacedToken.piece = d.rest.map PlacedToken.piece
  errors : c.errors.length = d.errors.length

namespace Alongside

theorem dropWhile_piece (tokens : List PlacedToken) :
    (tokens.dropWhile (·.kind.isTrivia)).map PlacedToken.piece =
      (tokens.map PlacedToken.piece).dropWhile (·.1.isTrivia) := by
  rw [List.dropWhile_map]
  rfl

theorem ahead (h : Alongside c d) :
    c.ahead.map PlacedToken.piece = d.ahead.map PlacedToken.piece := by
  rw [Cursor.ahead, Cursor.ahead, dropWhile_piece, dropWhile_piece, h.rest]

theorem kind?_eq (h : Alongside c d) : c.kind? = d.kind? := by
  have hkind (c : Cursor) : c.kind? = (c.ahead.map PlacedToken.piece).head?.map (·.1) := by
    rw [List.head?_map, Option.map_map]
    rfl
  rw [hkind, hkind, h.ahead]

theorem skipTrivia (h : Alongside c d) : Alongside c.skipTrivia d.skipTrivia := by
  refine ⟨?_, ?_⟩
  · rw [c.rest_skipTrivia, d.rest_skipTrivia, h.ahead]
  · rw [c.skipTrivia_eq, d.skipTrivia_eq]
    exact h.errors

theorem bump (h : Alongside c d) : Alongside c.bump d.bump := by
  refine ⟨?_, ?_⟩
  · rw [c.rest_bump, d.rest_bump, List.map_tail, List.map_tail, h.ahead]
  · rw [c.errors_bump, d.errors_bump, h.errors]

theorem secondKind?_eq (h : Alongside c d) : c.secondKind? = d.secondKind? := by
  rw [← c.kind?_bump, ← d.kind?_bump, h.bump.kind?_eq]

theorem sees_eq (h : Alongside c d) (kind : Kind) : c.sees kind = d.sees kind := by
  rw [Cursor.sees, Cursor.sees, h.kind?_eq]

theorem error (h : Alongside c d) (cause : SyntaxError.Cause) :
    Alongside (c.error cause) (d.error cause) :=
  ⟨h.rest, congrArg (· + 1) h.errors⟩

theorem ite {p q : Prop} [Decidable p] [Decidable q] {x x' y y' : Cursor} (hiff : p ↔ q)
    (h : Alongside x y) (h' : Alongside x' y') :
    Alongside (if p then x else x') (if q then y else y') := by
  by_cases hp : p
  · rwa [if_pos hp, if_pos (hiff.mp hp)]
  · rwa [if_neg hp, if_neg fun hq => hp (hiff.mpr hq)]

theorem expect (h : Alongside c d) (kind : Kind) : Alongside (c.expect kind) (d.expect kind) :=
  .ite (by rw [h.sees_eq]) h.bump (h.error _)

theorem finishNode (h : Alongside c d) : Alongside c.finishNode d.finishNode :=
  ⟨h.rest, h.errors⟩

theorem node (h : Alongside c d) (hf : ∀ {c d : Cursor}, Alongside c d → Alongside (f c) (g d)) :
    Alongside (c.node kind f) (d.node kind g) := by
  have hstart : Alongside (c.skipTrivia.startNode kind) (d.skipTrivia.startNode kind) :=
    ⟨h.skipTrivia.rest, h.skipTrivia.errors⟩
  exact (hf hstart).finishNode

theorem exposedItem (h : Alongside c d) :
    Alongside (Grammar.exposedItem c) (Grammar.exposedItem d) := by
  have hskip := h.skipTrivia
  unfold Grammar.exposedItem
  dsimp only
  rw [hskip.kind?_eq]
  split
  · exact hskip.node bump
  · refine hskip.node fun h₀ => .ite ?_ (h₀.bump.node fun h₁ => h₁.bump.bump.expect _) h₀.bump
    rw [Cursor.seesBoth, Cursor.seesBoth, h₀.bump.sees_eq, h₀.bump.secondKind?_eq]
  · exact hskip.node fun h₀ => (h₀.bump.expect _).expect _
  · exact hskip.error _

theorem length_eq (h : Alongside c d) : c.rest.length = d.rest.length := by
  simpa using congrArg List.length h.rest

theorem exposedItems (rounds : Nat) (h : Alongside c d) :
    Alongside (Grammar.exposedItems rounds c) (Grammar.exposedItems rounds d) := by
  induction rounds generalizing c d with
  | zero => exact ⟨h.rest, h.errors⟩
  | succ rounds ih =>
    have hitem := h.exposedItem
    refine .ite ?_ hitem (ih hitem.bump)
    rw [hitem.sees_eq, hitem.length_eq, h.length_eq]

theorem exposingList (h : Alongside c d) :
    Alongside (Grammar.exposingList c) (Grammar.exposingList d) := by
  refine h.node fun {c d} h₀ => .ite (by rw [h₀.sees_eq]) (.expect (.ite ?_ ?_ ?_) _) (h₀.error _)
  · rw [h₀.bump.sees_eq]
  · exact h₀.bump.bump
  · rw [h₀.bump.length_eq]
    exact h₀.bump.exposedItems _

end Alongside

-- ---------------------------------------------------------------------------
-- Imports
-- ---------------------------------------------------------------------------

/-- The kinds of the tokens that an import starts with: the keyword, a name and perhaps an alias. -/
inductive ImportFront : (hasAlias : Bool) → List Kind → Prop
  | name {gap name : List Kind} (hgap : ∀ kind ∈ gap, kind.isTrivia = true)
    (hname : NameKinds name) : ImportFront false (.importKw :: (gap ++ name))
  | renamed {front gap gap' : List Kind} (h : ImportFront false front)
    (hgap : ∀ kind ∈ gap, kind.isTrivia = true) (hgap' : ∀ kind ∈ gap', kind.isTrivia = true) :
    ImportFront true (front ++ gap ++ .asKw :: (gap' ++ [.upperIdent]))

theorem NameKinds.ends (h : NameKinds kinds) : kinds = [.upperIdent] ∨
    ∃ more, kinds = more ++ [.dot, .upperIdent] := by
  induction h with
  | last => exact .inl rfl
  | segment _ ih =>
    obtain rfl | ⟨more, rfl⟩ := ih
    · exact .inr ⟨[.upperIdent], rfl⟩
    · exact .inr ⟨.upperIdent :: .dot :: more, rfl⟩

/-- The front of an import ends with a name, behind a dot or a keyword, white space and comments
passed over. -/
theorem ImportFront.ends {hasAlias : Bool} (h : ImportFront hasAlias kinds) :
    ∃ more sep, kinds = more ++ [sep, .upperIdent] ∧
      (sep = .dot ∨ sep.isTrivia = true ∨ sep.isLettered = true) := by
  have hgap {keyword : Kind} {front gap : List Kind} (hkeyword : keyword.isLettered = true)
      (hgap : ∀ kind ∈ gap, kind.isTrivia = true) :
      ∃ more sep, front ++ keyword :: (gap ++ [.upperIdent]) = more ++ [sep, .upperIdent] ∧
        (sep = .dot ∨ sep.isTrivia = true ∨ sep.isLettered = true) := by
    obtain rfl | ⟨gap, last, rfl⟩ := List.eq_nil_or_concat gap
    · exact ⟨front, keyword, rfl, .inr (.inr hkeyword)⟩
    · exact ⟨front ++ keyword :: gap, last, by simp, .inr (.inl (hgap last (by simp)))⟩
  cases h with
  | @name gap name htrivia hname =>
    obtain rfl | ⟨more, rfl⟩ := hname.ends
    · exact @hgap .importKw [] gap rfl htrivia
    · exact ⟨.importKw :: (gap ++ more), .dot, by simp, .inl rfl⟩
  | renamed _ _ htrivia => exact hgap rfl htrivia

/-- It starts with the keyword and a capital, white space and comments passed over. -/
theorem ImportFront.begins {hasAlias : Bool} (h : ImportFront hasAlias kinds) :
    ∃ gap more, kinds = .importKw :: (gap ++ .upperIdent :: more) ∧
      ∀ kind ∈ gap, kind.isTrivia = true := by
  induction h with
  | @name gap name hgap hname =>
    obtain ⟨more, rfl⟩ := List.head?_eq_some_iff.mp hname.head_eq
    exact ⟨gap, more, rfl, hgap⟩
  | @renamed _ gap₁ gap₂ _ _ _ ih =>
    obtain ⟨gap, more, rfl, hgap⟩ := ih
    exact ⟨gap, more ++ (gap₁ ++ .asKw :: (gap₂ ++ [.upperIdent])), by simp, hgap⟩

/-- The rules of an import up to the place where a list of exposed items may stand. -/
def importFront (c : Cursor) : Cursor :=
  let c := upperCaseName (c.expect .importKw)
  if c.sees .asKw then asClause c else c

theorem importClause_eq : importClause = Cursor.node .importClause fun c =>
    if (importFront c).sees .exposingKw then exposingList (importFront c).bump
    else importFront c := rfl

theorem arrives_name {front : List PlacedToken} (h : ImportFront false (front.map (·.kind)))
    (hahead : c.ahead = front ++ rest) (hdot : ∀ t ∈ rest.head?, t.kind ≠ .dot) :
    Arrives c rest (upperCaseName (c.expect .importKw)) := by
  generalize hkinds : front.map (·.kind) = kinds at h
  cases h with
  | name hgap hname =>
    obtain ⟨keyword, more, rfl, hkeyword, hmore⟩ := List.map_eq_cons_iff.mp hkinds
    obtain ⟨gap, name, rfl, rfl, rfl⟩ := List.map_eq_append_iff.mp hmore
    have hexpect : Arrives c (gap ++ name ++ rest) (c.expect .importKw) :=
      .expect hahead hkeyword
    refine hexpect.trans (arrives_upperCaseName hname ?_ hdot)
    obtain ⟨t, name, rfl, ht, -⟩ :=
      List.map_eq_cons_iff.mp (List.head?_eq_some_iff.mp hname.head_eq).choose_spec
    have hrest : (c.expect .importKw).rest = gap ++ t :: (name ++ rest) := by
      rw [hexpect.rest_eq]
      simp
    refine Cursor.ahead_of_rest hrest (fun t ht => hgap _ (List.mem_map_of_mem ht)) ?_
    rw [ht]
    rfl

theorem head_ne_dot (hgap : ∀ t ∈ gap, t.kind.isTrivia = true) (ht : t.kind ≠ .dot) :
    ∀ first ∈ (gap ++ t :: rest).head?, first.kind ≠ .dot := by
  cases gap with
  | nil =>
    rintro _ ⟨⟩
    exact ht
  | cons first gap =>
    rintro _ ⟨⟩
    exact ne_of_isTrivia (hgap first List.mem_cons_self) rfl

theorem arrives_importFront {front : List PlacedToken} {hasAlias : Bool}
    (h : ImportFront hasAlias (front.map (·.kind))) (hahead : c.ahead = front ++ rest)
    (hdot : ∀ t ∈ rest.head?, t.kind ≠ .dot)
    (has : ∀ t ∈ (rest.dropWhile (·.kind.isTrivia)).head?, t.kind ≠ .asKw) :
    Arrives c rest (importFront c) := by
  cases hasAlias with
  | false =>
    have hname := arrives_name h hahead hdot
    have hsees : (upperCaseName (c.expect .importKw)).sees .asKw = false := by
      rw [Cursor.sees, Cursor.kind?, Cursor.next?, Cursor.ahead, hname.rest_eq]
      cases hnext : (rest.dropWhile (·.kind.isTrivia)).head? with
      | none => rfl
      | some t => simpa using has t hnext
    rw [importFront, if_neg (by simp [hsees])]
    exact hname
  | true =>
    generalize hkinds : front.map (·.kind) = kinds at h
    cases h with
    | renamed h hgap hgap' =>
      obtain ⟨before, more, rfl, hbefore, hmore⟩ := List.map_eq_append_iff.mp hkinds
      obtain ⟨front, gap, rfl, rfl, rfl⟩ := List.map_eq_append_iff.mp hbefore
      obtain ⟨keyword, more, rfl, hkeyword, hmore⟩ := List.map_eq_cons_iff.mp hmore
      obtain ⟨gap', last, rfl, rfl, hlast⟩ := List.map_eq_append_iff.mp hmore
      obtain ⟨other, rfl, hother⟩ := List.map_eq_singleton_iff.mp hlast
      rw [List.forall_mem_map] at hgap hgap'
      have hkeyword' : keyword.kind.isTrivia = false := by rw [hkeyword]; rfl
      have hname : Arrives c (gap ++ keyword :: (gap' ++ other :: rest))
          (upperCaseName (c.expect .importKw)) := by
        refine arrives_name h (hahead.trans (by simp)) (head_ne_dot hgap ?_)
        rw [hkeyword]
        decide
      have hahead' := Cursor.ahead_of_rest hname.rest_eq hgap hkeyword'
      have hsees : (upperCaseName (c.expect .importKw)).sees .asKw = true := by
        rw [Cursor.sees_iff, Cursor.kind?, Cursor.next?, hahead', ← hkeyword]
        rfl
      rw [importFront, if_pos hsees]
      exact hname.trans (arrives_asClause hahead' hgap' hother)

/-- An import without a list of exposed items ends behind its front. -/
theorem arrives_importClause {front : List PlacedToken} {hasAlias : Bool}
    (h : ImportFront hasAlias (front.map (·.kind))) (hahead : c.ahead = front ++ rest)
    (hdot : ∀ t ∈ rest.head?, t.kind ≠ .dot)
    (hnext : ∀ t ∈ (rest.dropWhile (·.kind.isTrivia)).head?,
      t.kind ≠ .asKw ∧ t.kind ≠ .exposingKw) :
    Arrives c rest (importClause c) := by
  rw [importClause_eq]
  refine .node fun c₀ hc₀ => ?_
  have hfront := arrives_importFront h (hc₀.trans hahead) hdot fun t ht => (hnext t ht).1
  have hsees : (importFront c₀).sees .exposingKw = false := by
    rw [Cursor.sees, Cursor.kind?, Cursor.next?, Cursor.ahead, hfront.rest_eq]
    cases hhead : (rest.dropWhile (·.kind.isTrivia)).head? with
    | none => rfl
    | some t => simpa using (hnext t hhead).2
  rw [if_neg (by simp [hsees])]
  exact hfront

/-- With a list of exposed items it is read alongside any other import with the same tokens from
the list on. -/
theorem alongside_importClause {front front' gap' more more' : List PlacedToken}
    {keyword' : PlacedToken} {hasAlias hasAlias' : Bool}
    (h : ImportFront hasAlias (front.map (·.kind)))
    (h' : ImportFront hasAlias' (front'.map (·.kind)))
    (hahead : c.ahead = front ++ (gap ++ keyword :: more))
    (hahead' : d.ahead = front' ++ (gap' ++ keyword' :: more'))
    (hgap : ∀ t ∈ gap, t.kind.isTrivia = true) (hgap' : ∀ t ∈ gap', t.kind.isTrivia = true)
    (hkeyword : keyword.kind = .exposingKw) (hkeyword' : keyword'.kind = .exposingKw)
    (hmore : more.map PlacedToken.piece = more'.map PlacedToken.piece)
    (herrors : c.errors.length = d.errors.length) :
    Alongside (importClause c) (importClause d) := by
  have hlist {c : Cursor} {front gap more : List PlacedToken} {keyword : PlacedToken}
      {hasAlias : Bool} (h : ImportFront hasAlias (front.map (·.kind)))
      (hahead : c.ahead = front ++ (gap ++ keyword :: more))
      (hgap : ∀ t ∈ gap, t.kind.isTrivia = true) (hkeyword : keyword.kind = .exposingKw) :
      (importFront c).sees .exposingKw = true ∧ Arrives c more (importFront c).bump := by
    have hword : keyword.kind.isTrivia = false := by rw [hkeyword]; rfl
    have hfront : Arrives c (gap ++ keyword :: more) (importFront c) := by
      refine arrives_importFront h hahead (head_ne_dot hgap (by rw [hkeyword]; decide)) ?_
      rw [(Fork.dropWhile_passed hgap hword).1]
      rintro _ ⟨⟩
      rw [hkeyword]
      decide
    have hnext := Cursor.ahead_of_rest hfront.rest_eq hgap hword
    refine ⟨?_, hfront.trans (.bump hnext)⟩
    rw [Cursor.sees_iff, Cursor.kind?, Cursor.next?, hnext, ← hkeyword]
    rfl
  have hstart {c : Cursor} : (c.skipTrivia.startNode .importClause).ahead = c.ahead ∧
      (c.skipTrivia.startNode .importClause).errors = c.errors := by
    refine ⟨c.ahead_skipTrivia, ?_⟩
    rw [c.skipTrivia_eq]
    rfl
  obtain ⟨hsees, harrives⟩ := hlist h (hstart.1.trans hahead) hgap hkeyword
  obtain ⟨hsees', harrives'⟩ := hlist h' (hstart.1.trans hahead') hgap' hkeyword'
  have hbody : Alongside (importFront (c.skipTrivia.startNode .importClause)).bump
      (importFront (d.skipTrivia.startNode .importClause)).bump := by
    refine ⟨?_, ?_⟩
    · rw [harrives.rest_eq, harrives'.rest_eq, hmore]
    · rw [harrives.errors_eq, harrives'.errors_eq, hstart.2, hstart.2, herrors]
  rw [importClause_eq]
  unfold Cursor.node
  dsimp only
  rw [if_pos hsees, if_pos hsees']
  exact hbody.exposingList.finishNode

end ElmLint.Syntax
