import ElmLint.Proofs.Syntax.Parts

/-!
# What nodes begin and end with

Which kinds of parts a node may begin and end with, and which may stand behind which, is read off
how it is spelled. So an exposed item or a pattern ends with a name, a literal, an underscore or a
closing bracket, and behind a pattern with a name comes what ends patterns: a closing bracket, a
comma, an arrow or an equals sign.
-/

namespace ElmLint.Syntax

open Production (one oneOf anything exposedKinds consPatternKinds patternKinds expressionKinds)

variable {form : RegularExpression Kind} {kind : Kind} {kinds word : List Kind} {site parent : Site}
  {before after : List Site} {text : String}

-- ---------------------------------------------------------------------------
-- Forms
-- ---------------------------------------------------------------------------

namespace Production

/-- The kinds that the words of a form may begin with. -/
def firsts : RegularExpression Kind → List Kind
  | .char kind => [kind]
  | .plus form other => firsts form ++ firsts other
  | .comp form other => firsts form ++ if form.matchEpsilon then firsts other else []
  | .star form => firsts form
  | _ => []

/-- The kinds that the words of a form may end with. -/
def lasts : RegularExpression Kind → List Kind
  | .char kind => [kind]
  | .plus form other => lasts form ++ lasts other
  | .comp form other => lasts other ++ if other.matchEpsilon then lasts form else []
  | .star form => lasts form
  | _ => []

theorem matchEpsilon_of_mem (h : [] ∈ form.matches') : form.matchEpsilon = true :=
  (RegularExpression.rmatch_iff_matches' form []).mpr h

theorem mem_firsts (h : word ∈ form.matches') : ∀ kind ∈ word.head?, kind ∈ firsts form := by
  induction form generalizing word with
  | zero => cases h
  | epsilon =>
    obtain rfl : word = [] := h
    exact nofun
  | char kind =>
    obtain rfl : word = [kind] := h
    rintro _ ⟨⟩
    exact List.mem_cons_self
  | plus form other ih ih' =>
    intro kind hkind
    refine List.mem_append.mpr (h.imp (fun h => ih h kind hkind) fun h => ih' h kind hkind)
  | comp form other ih ih' =>
    obtain ⟨front, hfront, back, hback, rfl⟩ := Language.mem_mul.mp h
    intro kind hkind
    cases front with
    | nil =>
      rw [firsts, if_pos (matchEpsilon_of_mem hfront)]
      exact List.mem_append_right _ (ih' hback kind hkind)
    | cons first front => exact List.mem_append_left _ (ih hfront kind hkind)
  | star form ih =>
    obtain ⟨rows, rfl, hrows⟩ := Language.mem_kstar_iff_exists_nonempty.mp h
    cases rows with
    | nil => exact nofun
    | cons row rows =>
      obtain ⟨hrow, hne⟩ := hrows row List.mem_cons_self
      rw [List.flatten_cons, List.head?_append_of_ne_nil _ hne]
      exact ih hrow

theorem mem_lasts (h : word ∈ form.matches') : ∀ kind ∈ word.getLast?, kind ∈ lasts form := by
  induction form generalizing word with
  | zero => cases h
  | epsilon =>
    obtain rfl : word = [] := h
    exact nofun
  | char kind =>
    obtain rfl : word = [kind] := h
    rintro _ ⟨⟩
    exact List.mem_cons_self
  | plus form other ih ih' =>
    intro kind hkind
    refine List.mem_append.mpr (h.imp (fun h => ih h kind hkind) fun h => ih' h kind hkind)
  | comp form other ih ih' =>
    obtain ⟨front, hfront, back, hback, rfl⟩ := Language.mem_mul.mp h
    intro kind hkind
    cases back with
    | nil =>
      rw [List.append_nil] at hkind
      rw [lasts, if_pos (matchEpsilon_of_mem hback)]
      exact List.mem_append_right _ (ih hfront kind hkind)
    | cons first back =>
      rw [List.getLast?_append_of_ne_nil _ (List.cons_ne_nil _ _)] at hkind
      exact List.mem_append_left _ (ih' hback kind hkind)
  | star form ih =>
    obtain ⟨rows, rfl, hrows⟩ := Language.mem_kstar_iff_exists_nonempty.mp h
    obtain rfl | ⟨rows, row, rfl⟩ := List.eq_nil_or_concat' rows
    · exact nofun
    · obtain ⟨hrow, hne⟩ := hrows row (by simp)
      rw [List.flatten_append, List.flatten_singleton, List.getLast?_append_of_ne_nil _ hne]
      exact ih hrow

end Production

/-- Exposed items and patterns without a name, and what these may end with. -/
def Kind.endings : List Kind :=
  [.exposedUnionConstructors, .upperCaseQid] ++ exposedKinds ++ consPatternKinds

theorem Kind.exists_form_of_endings (h : kind ∈ endings) : ∃ form, kind.spelling? = some form ∧
    form.matchEpsilon = false ∧ Production.lasts form ⊆ wordEnds ++ endings := by
  have hall : ∀ kind ∈ endings, (kind.spelling?.any fun form =>
      form.matchEpsilon == false && decide (Production.lasts form ⊆ wordEnds ++ endings)) = true := by
    decide
  simpa [Option.any_eq_true] using hall kind h

/-- The kinds of the tokens that an exposed item or a field begins with. -/
def Kind.itemHeads : List Kind := [.lowerIdent, .upperIdent, .lParen]

theorem Kind.exists_form_of_item (h : kind ∈ .lowerPattern :: exposedKinds) :
    ∃ form, kind.spelling? = some form ∧ form.matchEpsilon = false ∧
      Production.firsts form ⊆ itemHeads := by
  have hall : ∀ kind ∈ .lowerPattern :: exposedKinds, (kind.spelling?.any fun form =>
      form.matchEpsilon == false && decide (Production.firsts form ⊆ itemHeads)) = true := by decide
  simpa [Option.any_eq_true] using hall kind h

/-- The kinds of the tokens that stand behind a pattern with a name. -/
def Kind.closers : List Kind := [.comma, .rParen, .rBracket, .arrow, .eq]

section Parsed

variable (hok : (parse text).ok = true)
include hok

theorem exists_last_token (hsite : site ∈ (Site.root (parse text).tree).nodes)
    (hkind : site.kind ∈ Kind.endings) :
    ∃ more last, site.tokens = more ++ [last] ∧ last.kind ∈ Kind.wordEnds := by
  induction site using Site.parts_induction with
  | h site ih =>
    have hfile : site.kind ≠ .file := by
      rintro hfile
      rw [hfile] at hkind
      exact absurd hkind (by decide)
    obtain ⟨form, hform, hempty, hlasts⟩ := Kind.exists_form_of_endings hkind
    have hword := spelt_of_mem_nodes hok hsite hform
    rw [← solidKinds_parts] at hword
    obtain ⟨front, last, hlast⟩ := (List.eq_nil_or_concat' (solidKinds site.parts)).resolve_left
      fun hnil => by
        rw [hnil] at hword
        simp [Production.matchEpsilon_of_mem hword] at hempty
    obtain ⟨more, part, hparts, rfl, -⟩ := exists_last_part hok hsite hfile hlast
    have hmem : part ∈ site.parts := by simp [hparts]
    obtain ⟨inside, token, htokens, htoken⟩ : ∃ inside token,
        part.tokens = inside ++ [token] ∧ token.kind ∈ Kind.wordEnds := by
      obtain hend | hend :=
        List.mem_append.mp (hlasts (Production.mem_lasts hword part.kind (by simp [hlast])))
      · have hlexical : ∀ kind ∈ Kind.wordEnds, kind.isLexical = true := by decide
        exact ⟨[], part, tokens_of_part hok hsite hmem (hlexical _ hend), hend⟩
      · have hnodes : ∀ kind ∈ Kind.endings, kind.isLexical = false := by decide
        exact ih part hmem (mem_nodes_of_part hok hsite hmem (hnodes _ hend)) hend
    refine ⟨more.flatMap Site.tokens ++ inside, token, ?_, htoken⟩
    rw [Site.tokens_node (List.mem_filter.mp hsite).2, hparts]
    simp [htokens]

theorem exists_first_token_of_item (hsite : site ∈ (Site.root (parse text).tree).nodes)
    (hkind : site.kind ∈ .lowerPattern :: exposedKinds) :
    ∃ first more, site.tokens = first :: more ∧ first.kind ∈ Kind.itemHeads := by
  have hfile : site.kind ≠ .file := by
    rintro hfile
    rw [hfile] at hkind
    exact absurd hkind (by decide)
  obtain ⟨form, hform, hempty, hfirsts⟩ := Kind.exists_form_of_item hkind
  have hword := spelt_of_mem_nodes hok hsite hform
  rw [← solidKinds_parts] at hword
  cases hkinds : solidKinds site.parts with
  | nil =>
    rw [hkinds] at hword
    simp [Production.matchEpsilon_of_mem hword] at hempty
  | cons kind kinds =>
    obtain ⟨first, more, hparts, rfl, -⟩ := exists_first_part hok hsite hfile hkinds
    have hhead := hfirsts (Production.mem_firsts hword first.kind (by simp [hkinds]))
    have hlexical : ∀ kind ∈ Kind.itemHeads, kind.isLexical = true := by decide
    refine ⟨first, more.flatMap Site.tokens, ?_, hhead⟩
    rw [Site.tokens_node (List.mem_filter.mp hsite).2, hparts, List.flatMap_cons,
      tokens_of_part hok hsite (by simp [hparts]) (hlexical _ hhead)]
    rfl

end Parsed

end ElmLint.Syntax
