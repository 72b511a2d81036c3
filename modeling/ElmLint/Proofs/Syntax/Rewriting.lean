import ElmLint.Proofs.Syntax.NodeEnds
import ElmLint.Proofs.Syntax.Swaps

/-!
# Rewriting a text

Replacing bytes of a text puts tokens in the place of some and leaves those in front and behind as
they are, when the text is cut where tokens start and end and nothing goes on that did not before.
-/

namespace ElmLint.Syntax

variable {text newText edited : String} {range : ByteRange} {front gap middle gap' gone back : List Site}
  {put : List Piece} {place next last opening : Site}

/-- The range is cut out between characters of the text, and the new text put in its place. -/
structure Replaces (text : String) (range : ByteRange) (newText edited : String) : Prop where
  isBoundary_start : (LineIndex.ofText text).IsBoundary range.start
  isBoundary_stop : (LineIndex.ofText text).IsBoundary range.stop
  start_le_stop : range.start ≤ range.stop
  replaceBytes?_eq : replaceBytes? text range newText = some edited

/-- And this puts tokens in the place of those that are gone, and keeps all others. -/
structure Rewrites (text : String) (range : ByteRange) (newText edited : String)
    (front gone back : List Site) (put : List Piece) : Prop
    extends Replaces text range newText edited where
  tokens_eq : (Site.root (parse text).tree).tokens = front ++ (gone ++ back)
  pieces_eq : pieces edited.toList = front.map Site.piece ++ (put ++ back.map Site.piece)

theorem isBoundary_of_tokens (h : (Site.root (parse text).tree).tokens = front ++ back) :
    (LineIndex.ofText text).IsBoundary (utf8Length (joined (front.map Site.piece))) := by
  refine ⟨joined (front.map Site.piece), joined (back.map Site.piece), ?_, rfl⟩
  rw [← joined_append, ← List.map_append, ← h, ← pieces_toList, joined_pieces]
  rfl

theorem replaces_of_tokens
    (h : (Site.root (parse text).tree).tokens = front ++ (middle ++ back))
    (hrange : range = ⟨utf8Length (joined (front.map Site.piece)),
      utf8Length (joined ((front ++ middle).map Site.piece))⟩) (newText : String) :
    Replaces text range newText (String.ofList (joined (front.map Site.piece) ++
      (newText.toList ++ joined (back.map Site.piece)))) := by
  subst hrange
  refine ⟨isBoundary_of_tokens h, isBoundary_of_tokens (h.trans (List.append_assoc ..).symm), ?_,
    replaceBytes?_tokens h newText⟩
  rw [List.map_append, joined_append, utf8Length_append]
  exact Nat.le_add_right _ _

/-- What stands on both sides of the range may be cut anew together with the new text. -/
theorem exists_rewrites (newText : String) (put : List Piece)
    (h : (Site.root (parse text).tree).tokens = (front ++ gap) ++ (middle ++ (gap' ++ back)))
    (hfront : Leads (front.map Site.piece) (joined (gap.map Site.piece) ++
      (newText.toList ++ joined ((gap' ++ back).map Site.piece))))
    (hput : pieces (joined (gap.map Site.piece) ++
      (newText.toList ++ joined ((gap' ++ back).map Site.piece))) = put ++ back.map Site.piece)
    (hrange : range = ⟨utf8Length (joined ((front ++ gap).map Site.piece)),
      utf8Length (joined ((front ++ gap ++ middle).map Site.piece))⟩) :
    ∃ edited, Rewrites text range newText edited front (gap ++ (middle ++ gap')) back put := by
  refine ⟨_, replaces_of_tokens h hrange newText, by simp [h], ?_⟩
  rw [String.toList_ofList, ← hput, ← hfront, List.map_append, joined_append, List.append_assoc]

/-- The tokens that are seen, before and after. -/
theorem Rewrites.seen (h : Rewrites text range newText edited front gone back put) :
    ∃ before after, seenTokens text =
        before ++ ((gone.filter (!·.kind.isTrivia)).map Site.toToken ++ after) ∧
      (seenTokens edited).map Token.piece =
        before.map Token.piece ++ (solid put ++ after.map Token.piece) := by
  refine ⟨(front.filter (!·.kind.isTrivia)).map Site.toToken,
    (back.filter (!·.kind.isTrivia)).map Site.toToken, ?_, ?_⟩
  · rw [seenTokens, ← map_toToken_parse, h.tokens_eq]
    simp [List.filter_map, Function.comp_def, Site.toToken]
  · have hsolid (sites : List Site) : solid (sites.map Site.piece) =
        ((sites.filter (!·.kind.isTrivia)).map Site.toToken).map Token.piece := by
      rw [solid, List.filter_map, List.map_map]
      rfl
    rw [map_piece_seenTokens, h.pieces_eq, solid_append, solid_append, hsolid, hsolid]

theorem Rewrites.takesOut (h : Rewrites text range "" edited front gone back put)
    (hput : ∀ piece ∈ put, piece.1.isTrivia = true) :
    TakesOut text range ((gone.filter (!·.kind.isTrivia)).map Site.toToken) := by
  obtain ⟨before, after, hseen, hedited⟩ := h.seen
  refine ⟨edited, before, after, h.replaceBytes?_eq, hseen, ?_⟩
  rw [hedited, solid_of_trivia hput, List.nil_append, List.map_append]

/-- A name or a parenthesis starts with neither white space nor a hyphen. -/
theorem not_isSpace_of_item (h : (Site.root (parse text).tree).tokens = front ++ (next :: back))
    (hnext : next.kind ∈ Kind.itemHeads) :
    ∀ c ∈ (joined ((next :: back).map Site.piece)).head?, isSpace c = false ∧ c ≠ '-' := by
  obtain ⟨⟨d, tail, htext, hlexeme⟩, -⟩ := leads_cons_iff.mp (leads_behind h)
  have hkind : (lexeme d (tail ++ (joined (back.map Site.piece) ++ []))).kind = next.kind :=
    congrArg Lexeme.kind hlexeme
  intro c hc
  obtain rfl : d = c := by simpa [joined, htext] using hc
  constructor
  · have hword : next.kind.isTrivia = false := by
      have hwords : ∀ kind ∈ Kind.itemHeads, kind.isTrivia = false := by decide
      exact hwords _ hnext
    simpa using (startsWord_of_kind (by rwa [hkind])).space
  · rintro rfl
    obtain hname | hname | hparen :
        next.kind = .lowerIdent ∨ next.kind = .upperIdent ∨ next.kind = .lParen := by
      simpa [Kind.itemHeads] using hnext
    · exact absurd (isLetter_of_kind (.inl (hkind.trans hname))) (by decide)
    · exact absurd (isLetter_of_kind (.inr (hkind.trans hname))) (by decide)
    · have hdelimiter := isDelimiter_of_kind (by rw [hkind, hparen]; decide)
      exact absurd hdelimiter.1 (by decide)

/-- What stands behind a delimiter may be taken out in front of a name or a parenthesis. -/
theorem exists_rewrites_behind_delimiter (hok : (parse text).ok = true)
    (h : (Site.root (parse text).tree).tokens =
      (front ++ [opening] ++ gap) ++ (place :: middle ++ (next :: back)))
    (hopening : opening.kind ∈ Kind.delimiters) (hgap : ∀ place ∈ gap, place.kind.isTrivia = true)
    (hplace : place.kind.isTrivia = false)
    (hnext : next.kind ∈ Kind.itemHeads)
    (hrange : range = ⟨utf8Length (joined ((front ++ [opening] ++ gap).map Site.piece)),
      utf8Length (joined ((front ++ [opening] ++ gap ++ place :: middle).map Site.piece))⟩) :
    ∃ edited, Rewrites text range "" edited (front ++ [opening] ++ gap) (place :: middle)
      (next :: back) [] := by
  have hwords : (Site.root (parse text).tree).tokens =
      (front ++ [opening] ++ gap) ++ (place :: (middle ++ next :: back)) := by simp [h]
  have hbehind : (Site.root (parse text).tree).tokens =
      (front ++ [opening] ++ gap ++ place :: middle) ++ (next :: back) := by simp [h]
  have hmem : ∀ place ∈ front, place ∈ (Site.root (parse text).tree).tokens := by
    simp +contextual [h]
  have hclean := kind_ne_error_of_mem_tokens hok hmem
  have hleads : Leads ((front ++ [opening] ++ gap).map Site.piece)
      (joined ((next :: back).map Site.piece)) := by
    have hall := leads_tokens hwords
    have hlast := last_ne_lineComment hwords hplace
    rw [List.map_append, List.map_append, List.map_singleton] at hall hlast ⊢
    exact hall.behind_opening (joined_ne_nil hwords) hclean hopening (List.forall_mem_map.mpr hgap)
      (fun piece hpiece => hlast piece (mem_getLast?_append hpiece)) (not_isSpace_of_item hbehind hnext)
  have htokens : (Site.root (parse text).tree).tokens =
      ((front ++ [opening] ++ gap) ++ []) ++ (place :: middle ++ ([] ++ next :: back)) := by
    simp [h]
  simpa using exists_rewrites "" [] htokens hleads
    (pieces_joined_tokens hbehind) (by simpa using hrange)

/-- What stands between two gaps may be taken out behind what ends a pattern and in front of what
stands behind patterns, and the gaps become one. -/
theorem exists_rewrites_between (hok : (parse text).ok = true)
    (h : (Site.root (parse text).tree).tokens =
      ((front ++ [last]) ++ gap) ++ (place :: middle ++ (gap' ++ next :: back)))
    (hlast : last.kind ∈ Kind.wordEnds) (hgap : ∀ place ∈ gap, place.kind.isTrivia = true)
    (hgap' : ∀ place ∈ gap', place.kind.isTrivia = true) (hnext : next.kind.isTrivia = false)
    (hstops : next.kind ∈ Kind.stops)
    (hline : (∀ place ∈ gap.getLast?, place.kind ≠ .lineComment) ∨
      endsLine ((gap' ++ next :: back).map Site.piece) = true)
    (hrange : range = ⟨utf8Length (joined (((front ++ [last]) ++ gap).map Site.piece)),
      utf8Length (joined (((front ++ [last]) ++ gap ++ place :: middle).map Site.piece))⟩) :
    ∃ edited put, Rewrites text range "" edited (front ++ [last]) (gap ++ (place :: middle ++ gap'))
      (next :: back) put ∧ ∀ piece ∈ put, piece.1.isTrivia = true := by
  have hfront : (Site.root (parse text).tree).tokens =
      (front ++ [last]) ++ (gap ++ (place :: middle ++ (gap' ++ next :: back))) := by simp [h]
  have hmem : ∀ place ∈ front, place ∈ (Site.root (parse text).tree).tokens := by
    simp +contextual [h]
  have hgapLeads : Leads (gap.map Site.piece)
      (joined ((place :: (middle ++ (gap' ++ next :: back))).map Site.piece)) := by
    have hall := leads_tokens (h.trans (by simp) :
      _ = ((front ++ [last]) ++ gap) ++ (place :: (middle ++ (gap' ++ next :: back))))
    rw [List.map_append] at hall
    exact hall.of_append.2
  have hback : (Site.root (parse text).tree).tokens =
      ((front ++ [last]) ++ gap ++ place :: middle) ++ (gap' ++ next :: back) := by simp [h]
  have hne := joined_ne_nil (show (Site.root (parse text).tree).tokens =
    ((front ++ [last]) ++ gap) ++ (place :: (middle ++ (gap' ++ next :: back))) by simp [h])
  have hdrop : ((gap' ++ next :: back).map Site.piece).dropWhile (·.1.isTrivia) =
      (next :: back).map Site.piece := by
    rw [List.dropWhile_map, List.dropWhile_append_of_pos (by exact hgap'), List.dropWhile_cons_of_neg]
    exact ne_true_of_eq_false hnext
  obtain ⟨put, hput, -, hpieces⟩ := exists_gap hgapLeads hne (List.forall_mem_map.mpr hgap)
    (leads_behind hback) (hline.imp_left fun hline piece hpiece => by
      rw [List.getLast?_map] at hpiece
      obtain ⟨last, hmem, rfl⟩ := Option.map_eq_some_iff.mp (Option.mem_def.mp hpiece)
      exact hline last hmem)
  rw [hdrop] at hpieces
  generalize hrest : joined (gap.map Site.piece) ++ joined ((gap' ++ next :: back).map Site.piece) =
    rest at hpieces
  have hstop : Stops rest := by
    have hall : Leads (put ++ (next :: back).map Site.piece) [] := hpieces ▸ .of_pieces rest
    have hjoined : joined (put ++ (next :: back).map Site.piece) ++ [] = rest := by
      rw [← hpieces, joined_pieces, List.append_nil]
    have htrivia : ∀ kind : Kind, kind.isTrivia = true → kind ∈ Kind.stops := by
      intro kind hkind
      obtain rfl | rfl | rfl := Kind.isTrivia_cases hkind <;> decide
    rw [← hjoined]
    cases put with
    | nil => exact hall.stops hstops
    | cons piece put => exact hall.stops (htrivia _ (hput piece List.mem_cons_self))
  have hleads : Leads ((front ++ [last]).map Site.piece) rest := by
    have hall := leads_tokens hfront
    rw [List.map_append, List.map_singleton] at hall ⊢
    exact hall.before_stops (kind_ne_error_of_mem_tokens hok hmem) hlast hstop
  subst hrest
  obtain ⟨edited, hedited⟩ := exists_rewrites "" put h hleads hpieces hrange
  exact ⟨edited, put, hedited, hput⟩

end ElmLint.Syntax
