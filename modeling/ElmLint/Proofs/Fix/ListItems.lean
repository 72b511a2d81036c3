import ElmLint.Fix.QuickFix
import ElmLint.Proofs.Syntax.Rewriting

/-!
# Taking an item out of a list

An item leaves its list together with one comma: the one behind it, or for the last item the one in
front. What stood around them is put together, and is cut into the same tokens as before: a
delimiter or a name ends in front of whatever moves up, and a comment up to the end of its line
never does, because a word followed it.
-/

namespace ElmLint.Syntax

open Production (one exposedKinds)

variable {kind token first lead close : Kind} {items others : List Kind} {list item : Site}
  {text : String} {before after : List Site}

/-- Nodes of the kind hold items with commas between them, from an opening to a closing bracket. -/
inductive IsList : Kind → List Kind → Kind → Kind → Prop
  | exposing : IsList .exposingList exposedKinds .lParen .rParen
  | fields : IsList .recordPattern [.lowerPattern] .lBrace .rBrace

-- ---------------------------------------------------------------------------
-- Rows with commas
-- ---------------------------------------------------------------------------

section Rows

variable {before after : List Kind}

/-- What stands in front of an item and behind it. -/
structure Neighbours (items : List Kind) (lead close : Kind) (before after : List Kind) : Prop where
  front : ∃ front sep, before = front ++ [sep] ∧ (sep = lead ∨ sep = .comma)
  behind : (∃ next rest, next ∈ items ∧ after = .comma :: next :: rest) ∨
    after = [close] ∧ (before = [lead] ∨ ∃ front sep prev, (sep = lead ∨ sep = .comma) ∧
      prev ∈ items ∧ before = front ++ [sep, prev, .comma])

/-- One more item in front of those that a comma leads. -/
theorem Neighbours.cons (h : Neighbours items .comma close before after) (hfirst : first ∈ items)
    (lead : Kind) : Neighbours items lead close (lead :: first :: before) after where
  front := by
    obtain ⟨front, sep, rfl, hsep⟩ := h.front
    exact ⟨lead :: first :: front, sep, rfl, .inr (hsep.elim id id)⟩
  behind := by
    refine h.behind.imp_right fun ⟨hafter, hbefore⟩ => ⟨hafter, .inr ?_⟩
    obtain rfl | ⟨front, sep, prev, hsep, hprev, rfl⟩ := hbefore
    · exact ⟨[], lead, first, .inl rfl, hfirst, rfl⟩
    · exact ⟨lead :: first :: front, sep, prev, .inr (hsep.elim id id), hprev, rfl⟩

theorem neighbours (hcomma : .comma ∉ items) (hclose : close ∉ items) (hfirst : first ∈ items)
    (hothers : ∀ kind ∈ others, kind ∈ items) (hkind : kind ∈ items)
    (h : first :: (others.flatMap ([Kind.comma, ·]) ++ [close]) = before ++ kind :: after)
    (lead : Kind) : Neighbours items lead close (lead :: before) after := by
  induction others generalizing lead first before with
  | nil =>
    cases before with
    | nil =>
      obtain ⟨rfl, rfl⟩ := List.cons.inj h
      exact ⟨⟨[], lead, rfl, .inl rfl⟩, .inr ⟨rfl, .inl rfl⟩⟩
    | cons item front =>
      have hmem : kind ∈ [close] := by
        rw [show [close] = front ++ kind :: after from (List.cons.inj h).2]
        exact List.mem_append_right _ List.mem_cons_self
      exact absurd (List.mem_singleton.mp hmem ▸ hkind) hclose
  | cons next others ih =>
    obtain ⟨hnext, hothers⟩ := List.forall_mem_cons.mp hothers
    cases before with
    | nil =>
      obtain ⟨rfl, rfl⟩ := List.cons.inj h
      exact ⟨⟨[], lead, rfl, .inl rfl⟩, .inl ⟨next, _, hnext, rfl⟩⟩
    | cons item front =>
      obtain ⟨rfl, hrest⟩ := List.cons.inj h
      cases front with
      | nil =>
        obtain ⟨rfl, -⟩ := List.cons.inj hrest
        exact absurd hkind hcomma
      | cons sep front =>
        obtain ⟨rfl, hmore⟩ := List.cons.inj hrest
        exact (ih hnext hothers hmore .comma).cons hfirst lead

end Rows

-- ---------------------------------------------------------------------------
-- Lists
-- ---------------------------------------------------------------------------

namespace IsList

theorem lead_mem (h : IsList kind items lead close) : lead ∈ Kind.delimiters := by
  cases h <;> decide

theorem close_mem (h : IsList kind items lead close) : close ∈ Kind.delimiters := by
  cases h <;> decide

theorem lead_isLexical (h : IsList kind items lead close) : lead.isLexical = true := by
  cases h <;> rfl

theorem close_isLexical (h : IsList kind items lead close) : close.isLexical = true := by
  cases h <;> rfl

theorem close_ne_comma (h : IsList kind items lead close) : close ≠ .comma := by
  cases h <;> decide

/-- The items are all that a list has as its children. -/
theorem parts_subset (h : IsList kind items lead close) : kind.parts ⊆ items := by
  cases h <;> decide

/-- Where there are items at all, the brackets hold items with commas between them. -/
theorem exists_items {form : RegularExpression Kind} {word : List Kind}
    (h : IsList kind items lead close) (hform : kind.spelling? = some form)
    (hword : word ∈ form.matches') (hitem : item.kind ∈ items) (hmem : item.kind ∈ word) :
    ∃ first ∈ items, ∃ others : List Kind, (∀ kind ∈ others, kind ∈ items) ∧
      word = lead :: first :: (others.flatMap ([Kind.comma, ·]) ++ [close]) := by
  cases h with
  | exposing =>
    obtain rfl := Option.some.inj hform
    obtain ⟨inside, hinside, rfl⟩ := Production.exists_of_mem_enclosed hword
    obtain hall | hitems := hinside
    · obtain rfl : inside = [.dotDot] := hall
      have hnone : ∀ kind ∈ exposedKinds, kind ∉ [Kind.lParen, .dotDot, .rParen] := by decide
      exact absurd hmem (hnone _ hitem)
    · obtain ⟨first, hfirst, others, hothers, rfl⟩ := Production.exists_of_mem_separated
        (fun _ => Production.exists_of_mem_oneOf) hitems
      exact ⟨first, hfirst, others, hothers, by simp⟩
  | fields =>
    obtain rfl := Option.some.inj hform
    obtain ⟨inside, hinside, rfl⟩ := Production.exists_of_mem_enclosed hword
    have hform (word : List Kind) (hword : word ∈ (one .lowerPattern).matches') :
        ∃ kind ∈ [Kind.lowerPattern], word = [kind] :=
      ⟨.lowerPattern, List.mem_singleton_self _, hword⟩
    obtain ⟨first, hfirst, others, hothers, rfl⟩ := Production.exists_of_mem_separated hform hinside
    exact ⟨first, hfirst, others, hothers, by simp⟩

/-- Items are nodes, so brackets and commas are none. -/
theorem not_mem (h : IsList kind items lead close) (hlexical : token.isLexical = true) :
    token ∉ items := by
  have hnone : ∀ kind ∈ items, kind.isLexical = false := by cases h <;> decide
  intro hmem
  rw [hnone token hmem] at hlexical
  cases hlexical

theorem not_isLexical (h : IsList kind items lead close) (hitem : item.kind ∈ items) :
    item.kind.isLexical = false := by
  by_contra hlexical
  exact h.not_mem (by simpa using hlexical) hitem

theorem not_isTrivia (h : IsList kind items lead close) (hitem : item.kind ∈ items) :
    item.kind.isTrivia = false := by
  by_contra htrivia
  exact h.not_mem (by simp [Kind.isLexical, htrivia]) hitem

theorem ne_file (h : IsList kind items lead close) (hitem : item.kind ∈ items) :
    item.kind ≠ .file := by
  rintro hfile
  rw [hfile] at hitem
  cases h <;> exact absurd hitem (by decide)

theorem sep_mem {sep : Kind} (h : IsList kind items lead close)
    (hsep : sep = lead ∨ sep = .comma) : sep ∈ Kind.delimiters := by
  obtain rfl | rfl := hsep
  · exact h.lead_mem
  · decide

theorem subset_endings (h : IsList kind items lead close) : items ⊆ Kind.endings := by
  cases h <;> decide

theorem close_mem_stops (h : IsList kind items lead close) : close ∈ Kind.stops := by
  cases h <;> decide

/-- The items are what a list may be taken apart into. -/
theorem subset_items (h : IsList kind items lead close) :
    items ⊆ .lowerPattern :: exposedKinds := by
  cases h <;> decide

end IsList

section Lists

variable (hlist : IsList list.kind items lead close) (hok : (parse text).ok = true)
  (hsite : list ∈ (Site.root (parse text).tree).nodes)
include hlist hok hsite

/-- What is around an item of a list. -/
theorem neighbours_of_parts (hparts : list.parts = before ++ item :: after)
    (hitem : item.kind ∈ items) :
    Neighbours items lead close (solidKinds before) (solidKinds after) := by
  have htrivia := hlist.not_isTrivia hitem
  have hrow : solidKinds list.parts = solidKinds before ++ item.kind :: solidKinds after := by
    simp [hparts, solidKinds, htrivia]
  obtain ⟨form, hform⟩ : ∃ form, list.kind.spelling? = some form := by
    generalize list.kind = kind at hlist
    cases hlist
    · exact ⟨_, rfl⟩
    · exact ⟨_, rfl⟩
  obtain ⟨first, hfirst, others, hothers, hword⟩ := hlist.exists_items hform
    (spelt_of_mem_nodes hok hsite hform) hitem (by rw [← solidKinds_parts, hrow]; simp)
  rw [← solidKinds_parts, hrow] at hword
  cases hbefore : solidKinds before with
  | nil =>
    rw [hbefore] at hword
    exact absurd hitem ((List.cons.inj hword).1 ▸ hlist.not_mem hlist.lead_isLexical)
  | cons opening row =>
    rw [hbefore] at hword
    obtain ⟨rfl, hrest⟩ := List.cons.inj hword
    exact neighbours (hlist.not_mem rfl) (hlist.not_mem hlist.close_isLexical) hfirst hothers hitem
      hrest.symm opening

end Lists

end ElmLint.Syntax

namespace ElmLint.QuickFix

open Syntax

variable {lead close : Kind} {items : List Kind} {list item part : Site} {text : String}
  {before after gap : List Site}

theorem significantAfter?_of_parts (h : list.parts = before ++ item :: (gap ++ part :: after))
    (hgap : ∀ place ∈ gap, place.kind.isTrivia = true) (hpart : part.kind.isTrivia = false) :
    significantAfter? item = some part := by
  rw [significantAfter?, Site.partsAfter_of_parts h, List.find?_append,
    List.find?_eq_none.mpr (by simpa using hgap), Option.none_or,
    List.find?_cons_of_pos (by simp [hpart])]

theorem significantBefore?_of_parts (h : list.parts = (before ++ part :: gap) ++ item :: after)
    (hgap : ∀ place ∈ gap, place.kind.isTrivia = true) (hpart : part.kind.isTrivia = false) :
    significantBefore? item = some part := by
  rw [significantBefore?, Site.partsBefore_of_parts h, List.reverse_append, List.reverse_cons,
    List.append_assoc, List.find?_append, List.find?_eq_none.mpr (by simpa using hgap),
    Option.none_or, List.singleton_append, List.find?_cons_of_pos (by simp [hpart])]

/-- A word between white space and comments is all that is seen. -/
theorem words_between {word : Site} {gap gap' : List Site} (hok : (parse text).ok = true)
    (hsite : list ∈ (Site.root (parse text).tree).nodes) (hmem : word ∈ list.parts)
    (hword : word.kind.isLexical = true ∧ word.kind.isTrivia = false)
    (hgap : gap.flatMap Site.words = []) (hgap' : gap'.flatMap Site.words = []) :
    (gap ++ word :: gap').flatMap Site.words = [word] := by
  have hwords : word.words = [word] := by
    rw [Site.words, tokens_of_part hok hsite hmem hword.1]
    simp [hword.2]
  rw [List.flatMap_append, List.flatMap_cons, hwords, hgap, hgap']
  rfl

section Cut

variable (hlist : IsList list.kind items lead close) (hok : (parse text).ok = true)
  (hsite : list ∈ (Site.root (parse text).tree).nodes)
include hlist hok hsite

theorem mem_nodes_of_item (hpart : item ∈ list.parts) (hitem : item.kind ∈ items) :
    item ∈ (Site.root (parse text).tree).nodes :=
  mem_nodes_of_part hok hsite hpart (by simpa using hlist.not_isLexical hitem)

variable {outer outerBack : List Site}
  (htokens : (Site.root (parse text).tree).tokens =
    outer ++ (list.parts.flatMap Site.tokens ++ outerBack))
include htokens

/-- An item that a comma follows leaves with that comma, and what is between it and the next item
goes too. -/
theorem rewrites_with_comma_behind {front rest : List Kind} {sep next : Kind}
    (hparts : list.parts = before ++ item :: after) (hitem : item.kind ∈ items)
    (hbefore : solidKinds before = front ++ [sep]) (hsep : sep = lead ∨ sep = .comma)
    (hafter : solidKinds after = .comma :: next :: rest) (hnext : next ∈ items) :
    ∃ comma ∈ list.parts, ∃ inside more edited, comma.kind = .comma ∧ after = inside ++ more ∧
      inside.flatMap Site.words = [comma] ∧
      Rewrites text (listItemRange item) "" edited (outer ++ before.flatMap Site.tokens)
        ((item :: inside).flatMap Site.tokens) (more.flatMap Site.tokens ++ outerBack) [] := by
  obtain ⟨others, opening, gap, rfl, hgap, hopening, -⟩ := exists_last_solid hbefore
  obtain ⟨gap₁, comma, more, rfl, hgap₁, hcomma, hmore⟩ := exists_first_solid hafter
  obtain ⟨gap₂, following, tail, rfl, hgap₂, rfl, -⟩ := exists_first_solid hmore
  have hnodes : item ∈ (Site.root (parse text).tree).nodes :=
    mem_nodes_of_item hlist hok hsite (by simp [hparts]) hitem
  have hrow : list.parts = (others ++ opening :: gap ++ item :: gap₁) ++
      comma :: (gap₂ ++ following :: tail) := by simp [hparts]
  obtain ⟨middle, last, hlast⟩ : ∃ middle last,
      item :: (gap₁ ++ comma :: gap₂) = middle ++ [last] :=
    (List.eq_nil_or_concat' _).resolve_left (List.cons_ne_nil _ _)
  have hrange : listItemRange item = ⟨item.start, last.stop⟩ := by
    have hnextTo : following.start = last.stop := by
      have hnext : list.parts =
          (others ++ opening :: gap ++ middle) ++ last :: following :: tail := by
        calc list.parts = (others ++ opening :: gap) ++
              ((item :: (gap₁ ++ comma :: gap₂)) ++ following :: tail) := by simp [hparts]
          _ = _ := by simp [hlast]
      exact Site.start_of_next hnext
    rw [listItemRange, significantAfter?_of_parts hparts hgap₁ (by rw [hcomma]; rfl),
      Option.filter_some_pos (by simp [hcomma]),
      significantRange_of_mem_nodes hok hnodes (hlist.ne_file hitem), ← hnextTo]
    simp only [significantAfter?_of_parts hrow hgap₂ (hlist.not_isTrivia hnext)]
    rfl
  have hcut : list.parts = (others ++ opening :: gap) ++
      (item :: (gap₁ ++ comma :: gap₂) ++ following :: tail) := by simp [hparts]
  have hall : (Site.root (parse text).tree).tokens =
      (outer ++ (others ++ opening :: gap).flatMap Site.tokens) ++
        ((item :: (gap₁ ++ comma :: gap₂)).flatMap Site.tokens ++
          ((following :: tail).flatMap Site.tokens ++ outerBack)) := by
    rw [htokens, hcut]
    simp
  rw [hrange, range_of_parts hok hsite hcut rfl (by simp [hlast]) hall]
  have hopeningKind : opening.kind ∈ Kind.delimiters := hopening ▸ hlist.sep_mem hsep
  have hopeningTokens : opening.tokens = [opening] :=
    tokens_of_part hok hsite (by simp [hparts]) (Kind.isLexical_of_delimiter _ hopeningKind)
  have hgapTokens : gap.flatMap Site.tokens = gap :=
    flatMap_tokens_gap hok hsite (by simp +contextual [hparts]) hgap
  obtain ⟨first, inside, hfirst, hfirstKind⟩ := exists_first_token hok hnodes (hlist.ne_file hitem)
  obtain ⟨head, back, hhead, hheadKind⟩ := exists_first_token_of_item hok
    (mem_nodes_of_item hlist hok hsite (by simp [hparts]) hnext) (hlist.subset_items hnext)
  have hfront : outer ++ (others ++ opening :: gap).flatMap Site.tokens =
      (outer ++ others.flatMap Site.tokens) ++ [opening] ++ gap := by
    simp [hopeningTokens, hgapTokens]
  have hmiddle : (item :: (gap₁ ++ comma :: gap₂)).flatMap Site.tokens =
      first :: (inside ++ (gap₁ ++ comma :: gap₂).flatMap Site.tokens) := by simp [hfirst]
  have hback : (following :: tail).flatMap Site.tokens ++ outerBack =
      head :: (back ++ (tail.flatMap Site.tokens ++ outerBack)) := by simp [hhead]
  have hmem : comma ∈ list.parts := by simp [hparts]
  have hwords := words_between hok hsite hmem (by rw [hcomma]; exact ⟨rfl, rfl⟩)
    (flatMap_words_gap hok hsite (by simp +contextual [hparts]) hgap₁)
    (flatMap_words_gap hok hsite (by simp +contextual [hparts]) hgap₂)
  refine ⟨comma, hmem, gap₁ ++ comma :: gap₂, following :: tail, ?_⟩
  rw [hfront, hmiddle, hback] at hall ⊢
  obtain ⟨edited, hedited⟩ :=
    exists_rewrites_behind_delimiter hok hall hopeningKind hgap hfirstKind hheadKind rfl
  exact ⟨edited, hcomma, by simp, hwords, hedited⟩

/-- The last of several items leaves with the comma in front of it, and what is between the two goes
too. -/
theorem rewrites_with_comma_inFront {front : List Kind} {prev : Kind}
    (hparts : list.parts = before ++ item :: after) (hitem : item.kind ∈ items)
    (hbefore : solidKinds before = front ++ [prev, .comma]) (hprev : prev ∈ items)
    (hafter : solidKinds after = [close]) :
    ∃ comma ∈ list.parts, ∃ kept inside gap more edited put, comma.kind = .comma ∧
      before = kept ++ inside ∧ inside.flatMap Site.words = [comma] ∧
      after = gap ++ more ∧ gap.flatMap Site.words = [] ∧
      (∀ piece ∈ put, piece.1.isTrivia = true) ∧
      Rewrites text (listItemRange item) "" edited (outer ++ kept.flatMap Site.tokens)
        ((inside ++ item :: gap).flatMap Site.tokens) (more.flatMap Site.tokens ++ outerBack)
        put := by
  have hrow : solidKinds before = (front ++ [prev]) ++ [.comma] := by simp [hbefore]
  obtain ⟨items₁, comma, gap₂, rfl, hgap₂, hcomma, hitems₁⟩ := exists_last_solid hrow
  obtain ⟨others, previous, gap₁, rfl, hgap₁, rfl, -⟩ := exists_last_solid hitems₁
  obtain ⟨gap₃, closing, tail, rfl, hgap₃, hclosing, -⟩ := exists_first_solid hafter
  have hcommaTrivia : comma.kind.isTrivia = false := by rw [hcomma]; rfl
  have hclosingKind : closing.kind ∈ Kind.delimiters := hclosing ▸ hlist.close_mem
  have hclosingTrivia : closing.kind.isTrivia = false :=
    Kind.not_isTrivia_of_delimiter _ hclosingKind
  have hnodes : item ∈ (Site.root (parse text).tree).nodes :=
    mem_nodes_of_item hlist hok hsite (by simp [hparts]) hitem
  have hrange : listItemRange item = ⟨comma.start, item.stop⟩ := by
    have hnone : (some closing).filter (·.kind == .comma) = none := by
      simp [hclosing, hlist.close_ne_comma]
    rw [listItemRange, significantAfter?_of_parts hparts hgap₃ hclosingTrivia, hnone,
      significantRange_of_mem_nodes hok hnodes (hlist.ne_file hitem)]
    simp only [significantBefore?_of_parts hparts hgap₂ hcommaTrivia]
    rw [Option.filter_some_pos (by simp [hcomma])]
    rfl
  have hcut : list.parts = (others ++ previous :: gap₁) ++
      (comma :: (gap₂ ++ [item]) ++ (gap₃ ++ closing :: tail)) := by simp [hparts]
  have hlast : (comma :: (gap₂ ++ [item])).getLast? = some item := by
    rw [← List.cons_append, List.getLast?_concat]
  have hall : (Site.root (parse text).tree).tokens =
      (outer ++ (others ++ previous :: gap₁).flatMap Site.tokens) ++
        ((comma :: (gap₂ ++ [item])).flatMap Site.tokens ++
          ((gap₃ ++ closing :: tail).flatMap Site.tokens ++ outerBack)) := by
    rw [htokens, hcut]
    simp
  rw [hrange, range_of_parts hok hsite hcut rfl hlast hall]
  obtain ⟨inside, last, hlastTokens, hlastKind⟩ := exists_last_token hok
    (mem_nodes_of_item hlist hok hsite (by simp [hparts]) hprev) (hlist.subset_endings hprev)
  have hgapTokens {gap : List Site} (hmem : ∀ place ∈ gap, place ∈ list.parts)
      (hgap : ∀ place ∈ gap, place.kind.isTrivia = true) : gap.flatMap Site.tokens = gap :=
    flatMap_tokens_gap hok hsite hmem hgap
  have hgapTokens₁ := hgapTokens (by simp +contextual [hparts]) hgap₁
  have hgapTokens₃ := hgapTokens (by simp +contextual [hparts]) hgap₃
  have hcommaTokens : comma.tokens = [comma] :=
    tokens_of_part hok hsite (by simp [hparts]) (by rw [hcomma]; rfl)
  have hclosingTokens : closing.tokens = [closing] :=
    tokens_of_part hok hsite (by simp [hparts]) (Kind.isLexical_of_delimiter _ hclosingKind)
  have hfront : outer ++ (others ++ previous :: gap₁).flatMap Site.tokens =
      ((outer ++ others.flatMap Site.tokens ++ inside) ++ [last]) ++ gap₁ := by
    simp [hlastTokens, hgapTokens₁]
  have hmiddle : (comma :: (gap₂ ++ [item])).flatMap Site.tokens =
      comma :: (gap₂.flatMap Site.tokens ++ item.tokens) := by simp [hcommaTokens]
  have hback : (gap₃ ++ closing :: tail).flatMap Site.tokens ++ outerBack =
      gap₃ ++ closing :: (tail.flatMap Site.tokens ++ outerBack) := by
    simp [hgapTokens₃, hclosingTokens]
  rw [hback] at hall
  rw [hfront, hmiddle] at hall ⊢
  have hline : ∀ place ∈ gap₁.getLast?, place.kind ≠ .lineComment := by
    intro place hplace
    refine last_ne_lineComment hall hcommaTrivia place.piece ?_
    rw [List.map_append]
    refine mem_getLast?_append ?_
    rw [List.getLast?_map]
    exact Option.mem_map_of_mem _ hplace
  obtain ⟨edited, put, hedited, hput⟩ := exists_rewrites_between hok hall hlastKind hgap₁ hgap₃
    hclosingTrivia (hclosing ▸ hlist.close_mem_stops) (.inl hline) rfl
  refine ⟨comma, by simp [hparts], others ++ [previous], gap₁ ++ comma :: gap₂, gap₃,
    closing :: tail, edited, put, hcomma, by simp, ?_, rfl, ?_, hput, ?_⟩
  · exact words_between hok hsite (by simp [hparts]) (by rw [hcomma]; exact ⟨rfl, rfl⟩)
      (flatMap_words_gap hok hsite (by simp +contextual [hparts]) hgap₁)
      (flatMap_words_gap hok hsite (by simp +contextual [hparts]) hgap₂)
  · exact flatMap_words_gap hok hsite (by simp +contextual [hparts]) hgap₃
  · simpa [hlastTokens, hgapTokens₁, hgapTokens₃, hcommaTokens, hclosingTokens] using hedited

end Cut

/-- Deleting the range of an item of a list with several takes out the tokens of that item and one
comma next to it. -/
theorem listItemRange_takesOut (hok : (parse text).ok = true)
    (hsite : list ∈ (Site.root (parse text).tree).nodes)
    (hkind : list.kind = .exposingList ∨ list.kind = .recordPattern)
    (hmany : 1 < list.children.length) (hitem : item ∈ list.children) :
    ∃ comma ∈ list.parts, comma.kind = .comma ∧
      (TakesOut text (listItemRange item) ((item.words ++ [comma]).map Site.toToken) ∨
        TakesOut text (listItemRange item) ((comma :: item.words).map Site.toToken)) := by
  obtain ⟨items, lead, close, hlist⟩ : ∃ items lead close, IsList list.kind items lead close := by
    obtain hkind | hkind := hkind <;> rw [hkind]
    · exact ⟨_, _, _, .exposing⟩
    · exact ⟨_, _, _, .fields⟩
  have hitemKind : item.kind ∈ items :=
    hlist.parts_subset ((isFile_parse text).kind_mem_parts hsite hitem)
  obtain ⟨before, after, hparts⟩ := List.append_of_mem (List.mem_filter.mp hitem).1
  obtain ⟨⟨front, sep, hbefore, hsep⟩, hbehind⟩ :=
    neighbours_of_parts hlist hok hsite hparts hitemKind
  obtain ⟨outer, outerBack, htokens⟩ := exists_tokens_around hsite
  obtain ⟨next, rest, hnext, hafter⟩ | ⟨hafter, honly | ⟨front, sep, prev, hsep, hprev, hbefore⟩⟩ :=
    hbehind
  · obtain ⟨comma, hmem, inside, more, edited, hcomma, rfl, hinside, hrewrites⟩ :=
      rewrites_with_comma_behind hlist hok hsite htokens hparts hitemKind hbefore hsep hafter hnext
    refine ⟨comma, hmem, hcomma, .inl ?_⟩
    have htakes := hrewrites.takesOut nofun
    rw [List.filter_flatMap] at htakes
    rwa [← hinside]
  · -- a single item is the only child
    have hchildren := map_kind_children hok hsite
    have hrow : solidKinds list.parts = [lead, item.kind, close] := by
      rw [hparts, solidKinds_append, honly]
      simpa [solidKinds, hlist.not_isTrivia hitemKind] using hafter
    rw [hrow] at hchildren
    have hlength := congrArg List.length hchildren
    simp [hlist.lead_isLexical, hlist.close_isLexical, hlist.not_isLexical hitemKind] at hlength
    omega
  · have hinFront : solidKinds before = (front ++ [sep]) ++ [prev, .comma] := by simp [hbefore]
    obtain ⟨comma, hmem, kept, inside, gap, more, edited, put, hcomma, rfl, hinside, rfl, hgap, hput,
        hrewrites⟩ :=
      rewrites_with_comma_inFront hlist hok hsite htokens hparts hitemKind hinFront hprev hafter
    refine ⟨comma, hmem, hcomma, .inr ?_⟩
    have htakes := hrewrites.takesOut hput
    rw [List.filter_flatMap] at htakes
    change TakesOut text _ (((inside ++ item :: gap).flatMap Site.words).map _) at htakes
    rwa [List.flatMap_append, List.flatMap_cons, hinside, hgap, List.append_nil] at htakes

theorem listItemRange_takesOut_behindComment :
    ∃ list ∈ (Site.root (parse "import A exposing (B(..), (+) -- c\n  , d)\n").tree).nodes,
      list.kind = .exposingList ∧ 1 < list.children.length ∧
      ∃ item ∈ list.children, item.text = "d" ∧ ∃ comma ∈ list.parts, comma.kind = .comma ∧
        (TakesOut "import A exposing (B(..), (+) -- c\n  , d)\n" (listItemRange item)
            ((item.words ++ [comma]).map Site.toToken) ∨
          TakesOut "import A exposing (B(..), (+) -- c\n  , d)\n" (listItemRange item)
            ((comma :: item.words).map Site.toToken)) := by
  have hsome : ((Site.root (parse "import A exposing (B(..), (+) -- c\n  , d)\n").tree).nodes.find?
      fun s => s.kind == .exposingList && decide (1 < s.children.length) &&
        (s.children.find? (·.text == "d")).isSome).isSome = true := by decide +kernel
  obtain ⟨list, hfind⟩ := Option.isSome_iff_exists.mp hsome
  have hlist := List.find?_some hfind
  simp only [Bool.and_eq_true, beq_iff_eq, decide_eq_true_eq] at hlist
  obtain ⟨⟨hkind, hmany⟩, hitem⟩ := hlist
  obtain ⟨item, hitem⟩ := Option.isSome_iff_exists.mp hitem
  exact ⟨list, List.mem_of_find?_eq_some hfind, hkind, hmany, item,
    List.mem_of_find?_eq_some hitem, by simpa using List.find?_some hitem,
    listItemRange_takesOut (by decide +kernel) (List.mem_of_find?_eq_some hfind) (.inl hkind) hmany
      (List.mem_of_find?_eq_some hitem)⟩

end ElmLint.QuickFix
