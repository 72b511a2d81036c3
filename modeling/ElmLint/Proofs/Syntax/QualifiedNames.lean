import ElmLint.Proofs.Syntax.Emission
import ElmLint.Syntax.Grammar.Expression

/-!
# Qualified names

A qualified name is read twice: once ahead, to see whether it names a value, and once for good, from
tokens that touch each other. `Gives c trees c'` says what a way gives that records no error;
`NameParts last parts` says what a name is made of. The way through a name gives the parts of one,
and looking ahead tells which kind of segment it ends with.
-/

namespace ElmLint.Syntax

open Grammar

variable {c c' c'' : Cursor} {kind last : Kind} {trees trees' parts : List Tree}

-- ---------------------------------------------------------------------------
-- Ways without errors
-- ---------------------------------------------------------------------------

/-- The way emits the trees, and no error is recorded on it. -/
structure Gives (c : Cursor) (trees : List Tree) (c' : Cursor) : Prop extends
    Emits c trees c' where
  errors_eq : c'.errors = c.errors
  textEnd : c'.textEnd = c.textEnd

namespace Gives

theorem refl (c : Cursor) : Gives c [] c := ⟨.refl c, rfl, rfl⟩

theorem trans (h : Gives c trees c') (h' : Gives c' trees' c'') : Gives c (trees ++ trees') c'' :=
  ⟨h.toEmits.trans h'.toEmits, h'.errors_eq.trans h.errors_eq, h'.textEnd.trans h.textEnd⟩

theorem bump {t : PlacedToken} {tokens : List PlacedToken} (h : c.ahead = t :: tokens) :
    Gives c (c.trivia.map PlacedToken.leaf ++ [t.leaf]) c.bump := by
  refine ⟨.bump h, ?_, ?_⟩ <;> rw [Cursor.bump_of_ahead h]

theorem node (h : Gives (c.skipTrivia.startNode kind) trees c') :
    Gives c (c.trivia.map PlacedToken.leaf ++ [.node kind trees]) c'.finishNode := by
  refine ⟨.node h.toEmits, h.errors_eq.trans ?_, h.textEnd.trans ?_⟩
  all_goals
    rw [Cursor.skipTrivia_eq]
    rfl

/-- A token right at the cursor. -/
theorem touching {t : PlacedToken} {tokens : List PlacedToken} (h : c.rest = t :: tokens)
    (ht : t.kind.isTrivia = false) : Gives c [t.leaf] c.bump ∧ c.bump.rest = tokens := by
  have hahead : c.ahead = t :: tokens := by simp [Cursor.ahead, h, ht]
  have htrivia : c.trivia = [] := by simp [Cursor.trivia, h, ht]
  have hbump := bump hahead
  rw [htrivia] at hbump
  exact ⟨hbump, by rw [Cursor.rest_bump, hahead, List.tail_cons]⟩

/-- A dot and the segment that touches it. -/
theorem segment (h : c.touches .dot kind = true) (hkind : kind.isTrivia = false) :
    ∃ dot name tokens, c.rest = dot :: name :: tokens ∧ c.bump.bump.rest = tokens ∧
      dot.kind = .dot ∧ name.kind = kind ∧
      Gives c [.token .dot dot.text, .token kind name.text] c.bump.bump := by
  obtain ⟨dot, name, tokens, hrest, hdot, rfl⟩ := Cursor.rest_of_touches h
  obtain ⟨hfirst, hrest'⟩ := touching hrest (by rw [hdot]; rfl)
  obtain ⟨hsecond, hrest''⟩ := touching hrest' hkind
  refine ⟨dot, name, tokens, hrest, hrest'', hdot, rfl, ?_⟩
  have hboth := hfirst.trans hsecond
  rwa [PlacedToken.leaf, hdot] at hboth

end Gives

-- ---------------------------------------------------------------------------
-- The parts of a name
-- ---------------------------------------------------------------------------

def Kind.isName : Kind → Bool
  | .valueQid | .upperCaseQid => true
  | _ => false

/-- What the last segment of a name is. -/
def Kind.lastSegment : Kind → Kind
  | .valueQid => .lowerIdent
  | _ => .upperIdent

/-- Segments that start with a capital, each with a dot behind it, and a last segment of the kind
`last`. -/
inductive NameParts (last : Kind) : List Tree → Prop
  | last (name : String) : NameParts last [.token last name]
  | segment {parts : List Tree} (name dot : String) (h : NameParts last parts) :
    NameParts last (.token .upperIdent name :: .token .dot dot :: parts)

theorem NameParts.getLast? (h : NameParts last parts) :
    ∃ name, parts.getLast? = some (.token last name) := by
  induction h with
  | last name => exact ⟨name, rfl⟩
  | segment name dot h ih =>
    obtain ⟨name', hlast⟩ := ih
    cases h <;> exact ⟨name', hlast⟩

theorem NameParts.isNode_eq_false (h : NameParts last parts) :
    ∀ part ∈ parts, part.isNode = false := by
  induction h with
  | last name => exact List.forall_mem_singleton.mpr rfl
  | segment name dot _ ih =>
    exact List.forall_mem_cons.mpr ⟨rfl, List.forall_mem_cons.mpr ⟨rfl, ih⟩⟩

/-- The segments, joined with dots, are the text of the name. -/
theorem NameParts.dottedName_eq_text (h : NameParts kind.lastSegment parts)
    (hdots : ∀ dot, .token .dot dot ∈ parts → dot = ".") :
    (Tree.node kind parts).dottedName = (Tree.node kind parts).text := by
  have hends : kind.lastSegment = .upperIdent ∨ kind.lastSegment = .lowerIdent := by
    unfold Kind.lastSegment
    split <;> simp
  generalize kind.lastSegment = last at h hends
  rw [Tree.dottedName, Tree.text, Tree.leaves]
  suffices hsegments : (Tree.node kind parts).nameSegments ≠ [] ∧
      ".".intercalate (Tree.node kind parts).nameSegments =
        String.join ((Tree.leavesOf parts).map (·.2)) from hsegments.2
  induction h with
  | last name =>
    have hsegments : (Tree.node kind [.token last name]).nameSegments = [name] := by
      obtain rfl | rfl := hends <;> rfl
    rw [hsegments]
    exact ⟨List.cons_ne_nil _ _, by simp [Tree.leavesOf, Tree.leaves]⟩
  | @segment parts name dot _ ih =>
    obtain ⟨hne, htext⟩ := ih fun dot hdot => hdots dot (.tail _ (.tail _ hdot))
    obtain rfl := hdots dot (.tail _ (.head _))
    have hsegments :
        (Tree.node kind (.token .upperIdent name :: .token .dot "." :: parts)).nameSegments =
          name :: (Tree.node kind parts).nameSegments := rfl
    rw [hsegments, String.intercalate_cons_of_ne_nil hne, htext]
    refine ⟨List.cons_ne_nil _ _, ?_⟩
    simp [Tree.leavesOf, Tree.leaves, String.append_assoc]

-- ---------------------------------------------------------------------------
-- Reading a name
-- ---------------------------------------------------------------------------

theorem continuesToValue_segment {dot name : PlacedToken} (tokens : List PlacedToken)
    (hdot : dot.kind = .dot) (hname : name.kind = .upperIdent) :
    continuesToValue (dot :: name :: tokens) = continuesToValue tokens := by
  rw [continuesToValue, if_pos hdot, if_pos hname]

/-- What goes on to a value does so with a capital segment, or it ends with the next segment. -/
theorem touches_of_continuesToValue (h : continuesToValue c.rest = true) :
    c.touches .dot .upperIdent = true ∨ c.touches .dot .lowerIdent = true := by
  rw [Cursor.touches, Cursor.touches]
  match hrest : c.rest, h with
  | [], h | [_], h => simp [continuesToValue] at h
  | dot :: name :: tokens, h =>
    rw [continuesToValue] at h
    split at h
    · rename_i hdot
      split at h
      · rename_i hname
        exact .inl (by simp [hdot, hname])
      · exact .inr (by simpa [hdot] using h)
    · cases h

theorem continuesToValue_of_touches (h : c.touches .dot .lowerIdent = true) :
    continuesToValue c.rest = true := by
  obtain ⟨dot, name, tokens, hrest, hdot, hname⟩ := Cursor.rest_of_touches h
  rw [hrest, continuesToValue, if_pos hdot, if_neg (by rw [hname]; decide), hname]
  rfl

/-- Behind a segment with a capital, all that follow it and touch, and no further. -/
theorem gives_upperSegments (c : Cursor) :
    ∃ parts, Gives c parts (c.repeatWhile (·.touches .dot .upperIdent) fun c => c.bump.bump) ∧
      (∀ name, NameParts .upperIdent (.token .upperIdent name :: parts)) ∧
      (c.repeatWhile (·.touches .dot .upperIdent) fun c => c.bump.bump).touches
        .dot .upperIdent = false ∧
      continuesToValue (c.repeatWhile (·.touches .dot .upperIdent) fun c => c.bump.bump).rest =
        continuesToValue c.rest := by
  have hgo (rounds : Nat) (c : Cursor) (hrounds : c.rest.length < rounds) :
      let c' := Cursor.repeatWhile.go (·.touches .dot .upperIdent) (fun c => c.bump.bump) rounds c
      ∃ parts, Gives c parts c' ∧
        (∀ name, NameParts .upperIdent (.token .upperIdent name :: parts)) ∧
        c'.touches .dot .upperIdent = false ∧
        continuesToValue c'.rest = continuesToValue c.rest := by
    induction rounds generalizing c with
    | zero => omega
    | succ rounds ih =>
      rw [Cursor.repeatWhile.go]
      split
      · rename_i htouches
        obtain ⟨dot, name, tokens, hrest, hrest', hdot, hname, hgives⟩ := Gives.segment htouches rfl
        have hlength : c.bump.bump.rest.length < rounds := by
          rw [hrest, List.length_cons, List.length_cons] at hrounds
          rw [hrest']
          omega
        obtain ⟨parts, hparts, hname', hend, hcontinues⟩ := ih _ hlength
        refine ⟨_, hgives.trans hparts, fun first => .segment first _ (hname' name.text), hend, ?_⟩
        rw [hcontinues, hrest', hrest, continuesToValue_segment tokens hdot hname]
      · rename_i htouches
        exact ⟨[], .refl c, .last, by simpa using htouches, rfl⟩
  exact hgo _ c (Nat.lt_succ_self _)

/-- Behind a segment with a capital, all up to the first that starts with a small letter, when it is
known that there is one. -/
theorem gives_valueSegments (rounds : Nat) (c : Cursor) (hrounds : c.rest.length < rounds)
    (h : continuesToValue c.rest = true) :
    ∃ parts, Gives c parts (valueSegments rounds c) ∧
      ∀ name, NameParts .lowerIdent (.token .upperIdent name :: parts) := by
  induction rounds generalizing c with
  | zero => omega
  | succ rounds ih =>
    rw [valueSegments]
    split
    · rename_i htouches
      obtain ⟨dot, name, tokens, hrest, hrest', hdot, hname, hgives⟩ := Gives.segment htouches rfl
      rw [hrest, continuesToValue_segment tokens hdot hname, ← hrest'] at h
      have hlength : c.bump.bump.rest.length < rounds := by
        rw [hrest, List.length_cons, List.length_cons] at hrounds
        rw [hrest']
        omega
      obtain ⟨parts, hparts, hname'⟩ := ih _ hlength h
      exact ⟨_, hgives.trans hparts, fun first => .segment first _ (hname' name.text)⟩
    · rename_i hupper
      have hlower := (touches_of_continuesToValue h).resolve_left hupper
      obtain ⟨dot, name, tokens, -, -, -, -, hgives⟩ := Gives.segment hlower rfl
      rw [if_pos hlower]
      exact ⟨_, hgives, fun first => .segment first _ (.last name.text)⟩

/-- The way gives one name, behind the white space and the comments in front of it. -/
def GivesName (kind : Kind) (c c' : Cursor) : Prop :=
  ∃ parts, NameParts kind.lastSegment parts ∧
    Gives c (c.trivia.map PlacedToken.leaf ++ [.node kind parts]) c'

/-- A rule that reads the segments behind the first one reads a name. -/
theorem givesName_of_segments (segments : Rule) {t : PlacedToken} {tokens : List PlacedToken}
    (hahead : c.ahead = t :: tokens)
    (h : ∀ c₀ : Cursor, c₀.rest = tokens →
      ∃ parts, Gives c₀ parts (segments c₀) ∧ NameParts kind.lastSegment (t.leaf :: parts))
    (rule : Rule) (hrule : ∀ c₀ : Cursor, c₀.rest = t :: tokens → rule c₀ = segments c₀.bump) :
    GivesName kind c (c.node kind rule) := by
  have hrest : (c.skipTrivia.startNode kind).rest = t :: tokens := c.rest_skipTrivia.trans hahead
  obtain ⟨hfirst, hrest'⟩ := Gives.touching hrest (Cursor.isTrivia_of_ahead hahead)
  obtain ⟨parts, hparts, hname⟩ := h _ hrest'
  refine ⟨t.leaf :: parts, hname, ?_⟩
  have hgives := hfirst.trans hparts
  rw [← hrule _ hrest] at hgives
  exact .node hgives

theorem givesName_tokenNode (h : c.kind? = some .lowerIdent) :
    GivesName .valueQid c (Cursor.tokenNode .valueQid c) := by
  obtain ⟨t, tokens, hahead, hkind⟩ := Cursor.ahead_of_kind? h
  refine givesName_of_segments id hahead (fun c₀ _ => ⟨[], .refl c₀, ?_⟩) _
    fun _ _ => rfl
  rw [PlacedToken.leaf, hkind]
  exact .last t.text

theorem givesName_upperCaseName (h : c.kind? = some .upperIdent) :
    GivesName .upperCaseQid c (upperCaseName c) := by
  obtain ⟨t, tokens, hahead, hkind⟩ := Cursor.ahead_of_kind? h
  rw [upperCaseName, if_pos (Cursor.sees_iff.mpr h)]
  refine givesName_of_segments
    (·.repeatWhile (·.touches .dot .upperIdent) fun c => c.bump.bump) hahead
    (fun c₀ _ => ?_) _ fun _ _ => rfl
  obtain ⟨parts, hparts, hname, -⟩ := gives_upperSegments c₀
  refine ⟨parts, hparts, ?_⟩
  rw [PlacedToken.leaf, hkind]
  exact hname t.text

theorem givesName_valueSegments (h : c.kind? = some .upperIdent) (hvalue : namesValue c = true) :
    GivesName .valueQid c
      (c.node .valueQid fun c => valueSegments c.rest.length c.bump) := by
  obtain ⟨t, tokens, hahead, hkind⟩ := Cursor.ahead_of_kind? h
  have hcontinues : continuesToValue tokens = true := by
    simpa [namesValue, hahead, hkind] using hvalue
  refine givesName_of_segments (valueSegments (tokens.length + 1)) hahead
    (fun c₀ hrest => ?_) _ fun c₀ hrest => by rw [hrest, List.length_cons]
  obtain ⟨parts, hparts, hname⟩ := gives_valueSegments (tokens.length + 1) c₀
    (by rw [hrest]; exact Nat.lt_succ_self _) (hrest ▸ hcontinues)
  refine ⟨parts, hparts, ?_⟩
  rw [PlacedToken.leaf, hkind]
  exact hname t.text

/-- A capital name ends where no capital segment touches it, and a small one only if that was in
sight from its first segment. -/
theorem touches_upperCaseName (h : c.kind? = some .upperIdent) :
    (upperCaseName c).touches .dot .upperIdent = false ∧
      ((upperCaseName c).touches .dot .lowerIdent = true → namesValue c = true) := by
  obtain ⟨t, tokens, hahead, hkind⟩ := Cursor.ahead_of_kind? h
  rw [upperCaseName, if_pos (Cursor.sees_iff.mpr h)]
  have hrest : (c.skipTrivia.startNode .upperCaseQid).rest = t :: tokens :=
    c.rest_skipTrivia.trans hahead
  obtain ⟨-, hrest'⟩ := Gives.touching hrest (Cursor.isTrivia_of_ahead hahead)
  obtain ⟨parts, -, -, hupper, hcontinues⟩ :=
    gives_upperSegments (c.skipTrivia.startNode .upperCaseQid).bump
  refine ⟨hupper, fun hlower => ?_⟩
  have hvalue := continuesToValue_of_touches (c := Cursor.repeatWhile _ _ _) hlower
  rw [hcontinues, hrest'] at hvalue
  simp [namesValue, hahead, hvalue]

/-- Looking ahead agrees with reading: from a capital on, the name that is read ends with a small
segment exactly if that was foreseen, and else it ends where no segment touches it. -/
theorem gives_qualifiedValue (h : c.kind? = some .upperIdent) :
    ∃ kind parts, kind = (if namesValue c then Kind.valueQid else .upperCaseQid) ∧
      NameParts kind.lastSegment parts ∧
      Gives c (c.trivia.map PlacedToken.leaf ++ [.node .valueExpr [.node kind parts]])
        (qualifiedValue c) ∧
      (namesValue c = false → (qualifiedValue c).touches .dot .upperIdent = false ∧
        (qualifiedValue c).touches .dot .lowerIdent = false) := by
  have hinner : (c.skipTrivia.startNode .valueExpr).ahead = c.ahead := c.ahead_skipTrivia
  have hkind := (Cursor.kind?_congr hinner).trans h
  have htrivia : (c.skipTrivia.startNode .valueExpr).trivia = [] := by
    obtain ⟨t, tokens, hahead, -⟩ := Cursor.ahead_of_kind? h
    have hrest : (c.skipTrivia.startNode .valueExpr).rest = t :: tokens :=
      c.rest_skipTrivia.trans hahead
    simp [Cursor.trivia, hrest, Cursor.isTrivia_of_ahead hahead]
  have hnode {kind : Kind} {c' : Cursor}
      (hname : GivesName kind (c.skipTrivia.startNode .valueExpr) c') :
      ∃ parts, NameParts kind.lastSegment parts ∧
        Gives c (c.trivia.map PlacedToken.leaf ++ [.node .valueExpr [.node kind parts]])
          c'.finishNode := by
    obtain ⟨parts, hparts, hgives⟩ := hname
    rw [htrivia] at hgives
    exact ⟨parts, hparts, .node hgives⟩
  have hahead : namesValue (c.skipTrivia.startNode .valueExpr) = namesValue c := by
    rw [namesValue, namesValue, hinner]
  cases hvalue : namesValue c with
  | true =>
    obtain ⟨parts, hparts, hgives⟩ := hnode (givesName_valueSegments hkind (hahead.trans hvalue))
    have hread : qualifiedValue c = c.node .valueExpr _ := if_pos hvalue
    rw [hread]
    exact ⟨_, parts, rfl, hparts, hgives, nofun⟩
  | false =>
    obtain ⟨parts, hparts, hgives⟩ := hnode (givesName_upperCaseName hkind)
    obtain ⟨hupper, hlower⟩ := touches_upperCaseName hkind
    have hread : qualifiedValue c = c.node .valueExpr _ := if_neg (by rw [hvalue]; decide)
    rw [hread]
    refine ⟨_, parts, rfl, hparts, hgives, fun _ => ⟨hupper, ?_⟩⟩
    rw [hahead, hvalue] at hlower
    exact Bool.eq_false_iff.mpr fun htouches => Bool.noConfusion (hlower htouches)

end ElmLint.Syntax
