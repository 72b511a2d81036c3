import ElmLint.Fix.Edit
import ElmLint.Proofs.Syntax.Seams
import ElmLint.Proofs.Syntax.Tightness

/-!
# Cutting places out of a text

The tokens of a place follow each other in the text, and its bytes are those of its tokens. So what
is left when places next to each other are cut out is the text of the tokens in front, followed by
the text of the tokens behind.
-/

namespace ElmLint

/-- Replaces what stands between two parts of a text. -/
theorem replaceBytes?_of_append {text newText : String} {front middle back : List Char}
    (h : text.toList = front ++ (middle ++ back)) :
    replaceBytes? text ⟨utf8Length front, utf8Length (front ++ middle)⟩ newText =
      some (String.ofList front ++ newText ++ String.ofList back) := by
  have hstop : cutAt? text.toList (utf8Length (front ++ middle)) = some (front ++ middle, back) := by
    rw [h, ← List.append_assoc]
    exact cutAt?_append _ _
  rw [replaceBytes?, hstop, h, cutAt?_append]

namespace Syntax

variable {site part place : Site} {text : String} {before after front middle back : List Site}

-- ---------------------------------------------------------------------------
-- The tokens of a place
-- ---------------------------------------------------------------------------

def Site.piece (site : Site) : Piece := (site.kind, site.text.toList)

theorem pieces_toList (text : String) :
    pieces text.toList = (Site.root (parse text).tree).tokens.map Site.piece := by
  rw [← map_piece_tokenize, ← map_toToken_parse, List.map_map]
  rfl

namespace Site

theorem tokens_token (htoken : site.tree.isNode = false) : site.tokens = [site] := by
  have hdescendants : site.descendants = [site] := by
    rw [descendants]
    cases htree : site.tree with
    | token => rfl
    | node => simp [htree, Tree.isNode] at htoken
  simp [tokens, hdescendants, htoken]

theorem tokens_node (hnode : site.tree.isNode = true) :
    site.tokens = site.parts.flatMap tokens := by
  rw [tokens, descendants_eq, inner, List.filter_cons_of_neg (by simp [hnode]), List.filter_flatMap]
  rfl

/-- The tokens of a place follow each other. -/
theorem exists_tokens_eq (h : place ∈ site.descendants) :
    ∃ before after, site.tokens = before ++ (place.tokens ++ after) := by
  induction site using parts_induction with
  | h site ih =>
    rw [descendants_eq, List.mem_cons] at h
    obtain rfl | h := h
    · exact ⟨[], [], by simp⟩
    · obtain ⟨part, hpart, h⟩ := List.mem_flatMap.mp h
      obtain ⟨front, back, hparts⟩ := List.append_of_mem hpart
      obtain ⟨before, after, htokens⟩ := ih part hpart h
      have hnode : site.tree.isNode = true := by
        cases htree : site.tree with
        | token => simp [parts, htree, Tree.children, partsFrom] at hpart
        | node => rfl
      refine ⟨front.flatMap tokens ++ before, after ++ back.flatMap tokens, ?_⟩
      simp [tokens_node hnode, hparts, htokens]

theorem utf8Length_joined (sites : List Site) :
    utf8Length (joined (sites.map piece)) =
      ((sites.map fun t => (t.kind, t.text)).map (utf8Length ·.2.toList)).sum := by
  induction sites with
  | nil => rfl
  | cons site sites ih =>
    rw [List.map_cons, joined, List.flatMap_cons, utf8Length_append]
    exact congrArg (utf8Length site.text.toList + ·) ih

theorem stop_eq (site : Site) :
    site.stop = site.start + utf8Length (joined (site.tokens.map piece)) := by
  rw [stop, Tree.length_eq, utf8Length_joined, map_kind_tokens]

/-- A place starts behind the tokens in front of it. -/
theorem start_eq (h : site.tokens = before ++ (place.tokens ++ after)) (hne : place.tokens ≠ []) :
    place.start = site.start + utf8Length (joined (before.map piece)) := by
  have hlength (start : Nat) (leaves : List (Kind × String)) :
      (tokensOfLeaves start leaves).length = leaves.length := by
    induction leaves generalizing start with
    | nil => rfl
    | cons leaf leaves ih => rw [tokensOfLeaves, List.length_cons, ih, List.length_cons]
  have hall := map_toToken_tokens site
  rw [← map_kind_tokens, h] at hall
  simp only [List.map_append] at hall
  rw [tokensOfLeaves_append, ← utf8Length_joined] at hall
  obtain ⟨-, hrest⟩ := List.append_inj hall (by simp [hlength])
  have hplace := map_toToken_tokens place
  rw [← map_kind_tokens] at hplace
  obtain ⟨first, more, hfirst⟩ := List.exists_cons_of_ne_nil hne
  rw [hfirst] at hrest hplace
  simp only [List.map_cons, List.cons_append, tokensOfLeaves, List.cons.injEq] at hrest hplace
  exact (congrArg Token.start hplace.1).symm.trans (congrArg Token.start hrest.1)

end Site

-- ---------------------------------------------------------------------------
-- The tokens of a text
-- ---------------------------------------------------------------------------

theorem conforms_parse (hok : (parse text).ok = true) : (parse text).tree.Conforms := by
  obtain ⟨items, htree, -, -, -, -, hitems⟩ := parse_eq text
  have herrors : (Cursor.atEndOf text).errors = [] := by simpa [Parse.ok, parse] using hok
  rw [htree]
  exact (hitems herrors).conforms_file

theorem conforms_of_mem_descendants (hok : (parse text).ok = true)
    (h : place ∈ (Site.root (parse text).tree).descendants) : place.tree.Conforms := by
  have hroot : (Site.root (parse text).tree).tree.Conforms := conforms_parse hok
  refine Site.tree_of_mem_descendants (fun tree htree child hchild => ?_) hroot place h
  cases htree with
  | token => cases hchild
  | node _ hchildren => exact hchildren _ hchild

theorem kind_ne_error_of_mem_descendants (hok : (parse text).ok = true)
    (h : place ∈ (Site.root (parse text).tree).descendants) : place.kind ≠ .error :=
  (conforms_of_mem_descendants hok h).kind_ne_error

theorem kind_ne_error_of_mem_pieces (hok : (parse text).ok = true) {piece : Piece}
    (h : piece ∈ pieces text.toList) : piece.1 ≠ .error := by
  rw [pieces_toList] at h
  obtain ⟨token, htoken, rfl⟩ := List.mem_map.mp h
  exact kind_ne_error_of_mem_descendants hok (List.mem_filter.mp htoken).1

theorem leads_tokens (h : (Site.root (parse text).tree).tokens = front ++ back) :
    Leads (front.map Site.piece) (joined (back.map Site.piece)) := by
  have hall := Leads.of_pieces text.toList
  rw [pieces_toList, h, List.map_append] at hall
  simpa using hall.of_append.1

theorem leads_behind (h : (Site.root (parse text).tree).tokens = front ++ back) :
    Leads (back.map Site.piece) [] := by
  have hall := Leads.of_pieces text.toList
  rw [pieces_toList, h, List.map_append] at hall
  exact hall.of_append.2

theorem pieces_joined_tokens (h : (Site.root (parse text).tree).tokens = front ++ back) :
    pieces (joined (back.map Site.piece)) = back.map Site.piece := by
  have hnil : pieces [] = [] := by rw [pieces]
  have hback := leads_behind h
  rwa [Leads, List.append_nil, hnil, List.append_nil] at hback

/-- Replaces tokens of a text. -/
theorem replaceBytes?_tokens (h : (Site.root (parse text).tree).tokens = front ++ (middle ++ back))
    (newText : String) :
    replaceBytes? text ⟨utf8Length (joined (front.map Site.piece)),
        utf8Length (joined ((front ++ middle).map Site.piece))⟩ newText =
      some (String.ofList (joined (front.map Site.piece) ++
        (newText.toList ++ joined (back.map Site.piece)))) := by
  have htext : text.toList = joined (front.map Site.piece) ++
      (joined (middle.map Site.piece) ++ joined (back.map Site.piece)) := by
    rw [← joined_append, ← joined_append, ← List.map_append, ← List.map_append, ← h,
      ← pieces_toList, joined_pieces]
  rw [List.map_append, joined_append, replaceBytes?_of_append htext, String.ofList_append,
    String.ofList_append, String.ofList_toList, String.append_assoc]

/-- The tokens of a text that are neither white space nor comments. -/
def seenTokens (text : String) : List Token := (tokenize text).filter (!·.kind.isTrivia)

/-- Deleting the range takes these tokens out of those that are seen, and changes the kind and the
text of no other. -/
def TakesOut (text : String) (range : ByteRange) (gone : List Token) : Prop :=
  ∃ edited front back, replaceBytes? text range "" = some edited ∧
    seenTokens text = front ++ (gone ++ back) ∧
    (seenTokens edited).map Token.piece = (front ++ back).map Token.piece

theorem map_piece_seenTokens (text : String) :
    (seenTokens text).map Token.piece = solid (pieces text.toList) := by
  rw [← map_piece_tokenize, solid, List.filter_map]
  rfl

theorem takesOut_of_keeps (h : (Site.root (parse text).tree).tokens = front ++ (middle ++ back))
    (hkeeps : Keeps (front.map Site.piece) (joined (back.map Site.piece))) :
    TakesOut text ⟨utf8Length (joined (front.map Site.piece)),
        utf8Length (joined ((front ++ middle).map Site.piece))⟩
      ((middle.filter (!·.kind.isTrivia)).map Site.toToken) := by
  have hback : pieces (joined (back.map Site.piece)) = back.map Site.piece :=
    pieces_joined_tokens (h.trans (List.append_assoc ..).symm)
  refine ⟨_, (front.filter (!·.kind.isTrivia)).map Site.toToken,
    (back.filter (!·.kind.isTrivia)).map Site.toToken, replaceBytes?_tokens h "", ?_, ?_⟩
  · rw [seenTokens, ← map_toToken_parse, h]
    simp [List.filter_map, Function.comp_def, Site.toToken]
  · rw [map_piece_seenTokens, String.toList_ofList, String.toList_empty, List.nil_append, hkeeps,
      hback, ← solid_append, ← List.map_append, ← List.map_append, ← List.filter_append, solid,
      List.filter_map, List.map_map]
    rfl

/-- No name goes on where white space, a comment, a delimiter or nothing follows. -/
theorem not_isNameChar (h : (Site.root (parse text).tree).tokens = front ++ back)
    (hback : ∀ place ∈ back.head?, place.kind.isTrivia = true ∨ place.kind ∈ Kind.delimiters) :
    ∀ d ∈ (joined (back.map Site.piece)).head?, isNameChar d = false := by
  have hhead : ∀ piece ∈ (back.map Site.piece).head?,
      piece.1.isTrivia = true ∨ piece.1 ∈ Kind.delimiters := by
    cases back with
    | nil => exact nofun
    | cons place back =>
      rintro _ ⟨⟩
      exact hback place rfl
  have hnext : ∀ d ∈ (joined (back.map Site.piece) ++ []).head?, isNameChar d = false :=
    (leads_behind h).not_isNameChar hhead nofun
  rwa [List.append_nil] at hnext

theorem joined_ne_nil (h : (Site.root (parse text).tree).tokens = front ++ (place :: back)) :
    joined ((place :: back).map Site.piece) ≠ [] := by
  obtain ⟨⟨c, tail, htext, -⟩, -⟩ := leads_cons_iff.mp (leads_behind h)
  simp [joined, htext]

/-- A word behind tokens is no white space, and what it follows is no comment up to the end of its
line. -/
theorem last_ne_lineComment (h : (Site.root (parse text).tree).tokens = front ++ (place :: back))
    (hplace : place.kind.isTrivia = false) :
    ∀ piece ∈ (front.map Site.piece).getLast?, piece.1 ≠ .lineComment := by
  obtain ⟨c, cs, hword, hspace⟩ := (leads_behind h).exists_cons hplace
  have hfront := leads_tokens h
  rw [List.append_nil] at hword
  rw [List.map_cons, hword] at hfront
  exact hfront.last_ne_lineComment hspace

theorem kind_ne_error_of_mem_tokens (hok : (parse text).ok = true)
    (h : ∀ place ∈ front, place ∈ (Site.root (parse text).tree).tokens) :
    ∀ piece ∈ front.map Site.piece, piece.1 ≠ .error := by
  intro piece hpiece
  obtain ⟨place, hplace, rfl⟩ := List.mem_map.mp hpiece
  exact kind_ne_error_of_mem_descendants hok (List.mem_filter.mp (h place hplace)).1

/-- A place starts behind the tokens in front of it. -/
theorem start_of_tokens (h : (Site.root (parse text).tree).tokens = before ++ (place.tokens ++ after))
    (hne : place.tokens ≠ []) : place.start = utf8Length (joined (before.map Site.piece)) := by
  rw [Site.start_eq h hne]
  exact Nat.zero_add _

theorem stop_of_tokens (h : (Site.root (parse text).tree).tokens = before ++ (place.tokens ++ after))
    (hne : place.tokens ≠ []) :
    place.stop = utf8Length (joined ((before ++ place.tokens).map Site.piece)) := by
  rw [Site.stop_eq, start_of_tokens h hne, List.map_append, joined_append, utf8Length_append]

end Syntax

end ElmLint
