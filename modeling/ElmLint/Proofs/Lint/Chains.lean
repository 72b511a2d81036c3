import ElmLint.Proofs.Lint.Shapes

/-!
# Reports on operator chains

Three checks report a part of a chain, from one operand to a later one. Of the findings on one chain
each begins behind the operand that the one before begins with. A chain in an operand is matched
after the chain around it, so its findings come late when the operand stands in front.
-/

namespace ElmLint.Lint

open Syntax

variable {root chain place first last : Site} {tree : Tree} {f g : Finding} {shape : Shape}
  {shapes : List Shape} {rule : NodeRule} {captures captures' : Captures} {number : Nat}
  {report? : Match → Option Finding} {fields : String → Option (List String)}

-- ---------------------------------------------------------------------------
-- Windows
-- ---------------------------------------------------------------------------

/-- The finding goes from one operand of the chain to a later one. -/
structure IsWindow (chain first last : Site) (f : Finding) : Prop where
  kind_eq : chain.kind = .binOpExpr
  first_mem : first ∈ chain.children
  last_mem : last ∈ chain.children
  order : first.stop ≤ last.start
  range_eq : f.range = first.significantRange.cover last.significantRange
  isOnChains : f.code.isOnChains = true

namespace IsWindow

section

variable (hwindow : IsWindow chain first last f) (h : tree.IsParsed)
  (hchain : chain ∈ (Site.root tree).nodes)
include hwindow h hchain

theorem words {operand : Site} (hoperand : operand ∈ chain.children) : operand.words ≠ [] :=
  words_of_isPlain h (List.mem_filter.mp hchain).1 (by rw [hwindow.kind_eq]; rfl) hoperand

omit hwindow in
theorem isSpelled {operand : Site} (hoperand : operand ∈ chain.children) : operand.IsSpelled :=
  h.spelled.descendants (Site.mem_descendants_trans (List.mem_filter.mp hchain).1
    (descendants_of_mem_children hoperand))

theorem range_eq_mk : f.range = ⟨first.significantRange.start, last.significantRange.stop⟩ := by
  rw [hwindow.range_eq]
  exact Site.cover_eq (isSpelled h hchain hwindow.first_mem)
    (isSpelled h hchain hwindow.last_mem) (hwindow.words h hchain hwindow.first_mem)
    (hwindow.words h hchain hwindow.last_mem) (.inr hwindow.order)

theorem marks : chain.Marks f.range := by
  rw [hwindow.range_eq]
  exact Site.marks_cover (h.spelled.descendants (List.mem_filter.mp hchain).1)
    (descendants_of_mem_children hwindow.first_mem) (descendants_of_mem_children hwindow.last_mem)
    (hwindow.words h hchain hwindow.first_mem) (hwindow.words h hchain hwindow.last_mem)
    (.inr hwindow.order)

/-- A finding inside an operand of the chain may come next. -/
theorem precedes_inner (hplace : place ∈ chain.inner) (hnode : place.tree.isNode = true)
    (hmarks : place.Marks g.range) : Precedes (.root tree) f g := by
  have hspelled := h.spelled.descendants (List.mem_filter.mp hchain).1
  have hrange := hwindow.range_eq_mk h hchain
  have hfirst := mem_children hwindow.first_mem
  have hlast := mem_children hwindow.last_mem
  constructor
  · intro _
    refine Site.ne_of_straddles hspelled hfirst.1 hlast.1
      (hwindow.words h hchain hwindow.first_mem) (hwindow.words h hchain hwindow.last_mem)
      hwindow.order ?_ ?_ hplace hmarks
    · rw [hrange]
    · rw [hrange]
  obtain ⟨around, haround, hplace⟩ := List.mem_flatMap.mp hplace
  have hchild := Site.isNode_of_mem_descendants haround hplace hnode
  have hinside := (hmarks.descendants hplace).significantRange
  rw [hrange]
  by_cases hne : around = first
  · subst hne
    exact .inl hinside.2.1
  have hbounds := hinside.1.bounds (isSpelled h hchain hchild)
  have hbounds' := (Site.marks_significantRange (hwindow.words h hchain hwindow.first_mem)).bounds
    (isSpelled h hchain hwindow.first_mem)
  obtain hbefore | hbehind := Site.apart_of_ne haround hfirst.1 hne
  · refine .inr ⟨hwindow.isOnChains, chain, hchain, hwindow.kind_eq, around, hchild, first,
      hwindow.first_mem, hbefore, ?_, rfl⟩
    simpa [ByteRange.contains] using hinside.2
  · have := hinside.2.1
    exact .inl (by simp only; omega)

end

/-- Findings on one chain, where the second begins with a later operand. -/
theorem precedes_of_stop_le {last' first' : Site} (hwindow : IsWindow chain first last f)
    (hwindow' : IsWindow chain first' last' g) (h : tree.IsParsed)
    (hchain : chain ∈ (Site.root tree).nodes) (hstop : first.stop ≤ first'.start) :
    Precedes (.root tree) f g := by
  refine .of_lt ?_
  rw [hwindow.range_eq_mk h hchain, hwindow'.range_eq_mk h hchain]
  have hbounds := (Site.marks_significantRange (hwindow.words h hchain hwindow.first_mem)).bounds
    (isSpelled h hchain hwindow.first_mem)
  have hbounds' := (Site.marks_significantRange (hwindow'.words h hchain hwindow'.first_mem)).bounds
    (isSpelled h hchain hwindow'.first_mem)
  simp only
  omega

end IsWindow

-- ---------------------------------------------------------------------------
-- Rows that stand anywhere
-- ---------------------------------------------------------------------------

/-- The matches of a row follow each other as the places where it stands. -/
theorem pairwise_matches_anywhere {R : Captures → Captures → Prop} {site : Site}
    (h : ∀ i j, i < j → ∀ captures captures',
      rowMatch? shapes (site.children.drop i) = some captures →
      rowMatch? shapes (site.children.drop j) = some captures' →
      R (rule.captures site ++ captures) (rule.captures site ++ captures')) :
    ((Shape.mk rule (.row .anywhere shapes)).matches site).Pairwise R := by
  rw [matches_mk, ChildRule.matches]
  split
  · rw [List.pairwise_map, List.pairwise_filterMap]
    have hstarts :
        (Anchor.anywhere.starts shapes.length site.children.length).Pairwise (· < ·) := by
      simp only [Anchor.starts]
      split
      · exact List.pairwise_lt_range
      · exact .nil
    exact hstarts.imp fun {i j} hlt captures hi captures' hj => h i j hlt captures captures' hi hj
  · exact .nil

/-- A row of three shapes in a list of operands and operators. -/
theorem rowMatch?_three {x y z : Shape} {sites : List Site} {i : Nat}
    (h : rowMatch? [x, y, z] (sites.drop i) = some captures) :
    ∃ a o b rest ca co cb, sites.drop i = a :: o :: b :: rest ∧ (x.matches a).head? = some ca ∧
      (y.matches o).head? = some co ∧ (z.matches b).head? = some cb ∧
      captures = ca ++ (co ++ cb) := by
  obtain ⟨a, _, ca, _, ha, hca, hafter, rfl⟩ := rowMatch?_cons h
  obtain ⟨o, _, co, _, rfl, hco, hbehind, rfl⟩ := rowMatch?_cons hafter
  obtain ⟨b, rest, cb, _, rfl, hcb, hnone, rfl⟩ := rowMatch?_cons hbehind
  obtain rfl := Option.some.inj hnone
  exact ⟨a, o, b, rest, ca, co, cb, ha, hca, hco, hcb, by rw [List.append_nil]⟩

-- ---------------------------------------------------------------------------
-- Chain checks
-- ---------------------------------------------------------------------------

/-- A finding of a row that stands at `i` begins with an operand up to this place and ends with one
behind it. The findings of later rows begin behind it, too. -/
structure FindsWindows (shapes : List Shape) (first last : Captures → Option Site) : Prop where
  ends : ∀ (chain : Site) i captures, rowMatch? shapes (chain.children.drop i) = some captures →
    ∃ a ∈ chain.children.take (i + 1), ∃ b ∈ chain.children.drop (i + 1),
      first captures = some a ∧ last captures = some b
  later : ∀ (chain : Site) i j captures captures', i < j →
    rowMatch? shapes (chain.children.drop i) = some captures →
    rowMatch? shapes (chain.children.drop j) = some captures' →
    ∀ a ∈ first captures', a ∈ chain.children.drop (i + 1)

theorem stop_le_start {i : Nat} (ha : first ∈ chain.children.take i)
    (hb : last ∈ chain.children.drop i) : first.stop ≤ last.start := by
  have hsorted := pairwise_children chain
  rw [← List.take_append_drop i chain.children] at hsorted
  exact (List.pairwise_append.mp hsorted).2.2 first ha last hb

theorem reportBetween_eq (s : Subject) (code : LintCode) (message : String) (shape : Shape)
    (first last : Captures → Option Site) :
    reportBetween s code message shape first last = (findMatches s.file.root shape).filterMap fun m =>
      (first m.captures).bind fun a => (last m.captures).map (Finding.between code message a) := by
  refine List.filterMap_congr fun m _ => ?_
  cases first m.captures <;> cases last m.captures <;> rfl

theorem isReport_windows (h : tree.IsParsed) (code : LintCode) (message : String)
    {first last : Captures → Option Site} (hcode : code.isOnChains = true)
    (hkind : rule.kind? = some .binOpExpr) (hcapture : rule.capture? = none)
    (hfinds : FindsWindows shapes first last) :
    IsReport (.root tree) code.checkNumber
      (reportBetween (.ofTree tree fields) code message (.mk rule (.row .anywhere shapes))
        first last) := by
  have hcaptures (chain : Site) (captures : Captures) :
      rule.captures chain ++ captures = captures := by
    rw [NodeRule.captures, hcapture]
    rfl
  -- a finding that a row gives, and where it begins
  have hwindow {chain : Site} {i : Nat} {captures : Captures} {f : Finding}
      (hkind : chain.kind = .binOpExpr)
      (hrow : rowMatch? shapes (chain.children.drop i) = some captures)
      (hf : ((first captures).bind fun a =>
        (last captures).map (Finding.between code message a)) = some f) :
      f.code = code ∧ ∃ a ∈ chain.children.take (i + 1), ∃ b, first captures = some a ∧
        IsWindow chain a b f := by
    obtain ⟨a, ha, b, hb, hfirst, hlast⟩ := hfinds.ends chain i captures hrow
    rw [hfirst, hlast] at hf
    obtain rfl := Option.some.inj hf
    exact ⟨rfl, a, ha, b, hfirst, hkind, List.mem_of_mem_take ha, List.mem_of_mem_drop hb,
      stop_le_start ha hb, rfl, hcode⟩
  have hmatch {m : Match} (hm : m ∈ findMatches (.root tree) (.mk rule (.row .anywhere shapes))) :
      m.site ∈ (Site.root tree).nodes ∧ m.site.kind = .binOpExpr ∧
        ∃ i, rowMatch? shapes (m.site.children.drop i) = some m.captures := by
    obtain ⟨hsite, hmem⟩ := mem_findMatches hm
    obtain ⟨haccepts, inner, hinner, hequal⟩ := mem_matches hmem
    rw [ChildRule.matches] at hinner
    obtain ⟨i, -, hrow⟩ := List.mem_filterMap.mp hinner
    exact ⟨hsite, kind_of_accepts haccepts hkind, i, by rw [hequal, hcaptures, hrow]⟩
  rw [reportBetween_eq]
  refine isReport_findMatches h.spelled (fun m hm f hf => ?_) (fun chain hchain => ?_)
    fun m hm m' hm' hinner f hf g hg => ?_
  · obtain ⟨hsite, hkind', i, hrow⟩ := hmatch hm
    obtain ⟨rfl, a, -, b, -, hwindow⟩ := hwindow hkind' hrow hf
    exact ⟨rfl, hwindow.marks h hsite⟩
  · by_cases haccepts : rule.accepts chain = true
    case neg =>
      rw [matches_mk, if_neg haccepts]
      exact .nil
    have hkind' := kind_of_accepts haccepts hkind
    refine pairwise_matches_anywhere fun i j hlt captures captures' hrow hrow' f hf g hg => ?_
    rw [hcaptures] at hf hg
    obtain ⟨-, a, ha, b, -, hwindow₁⟩ := hwindow hkind' hrow hf
    obtain ⟨-, a', -, b', hfirst, hwindow₂⟩ := hwindow hkind' hrow' hg
    have ha' := hfinds.later chain i j captures captures' hlt hrow hrow' a' hfirst
    exact hwindow₁.precedes_of_stop_le hwindow₂ h hchain (stop_le_start ha ha')
  · obtain ⟨hsite, hkind₁, i, hrow⟩ := hmatch hm
    obtain ⟨hsite', hkind₂, j, hrow'⟩ := hmatch hm'
    obtain ⟨-, a, -, b, -, hwindow₁⟩ := hwindow hkind₁ hrow hf
    obtain ⟨-, a', -, b', -, hwindow₂⟩ := hwindow hkind₂ hrow' hg
    exact hwindow₁.precedes_inner h hsite hinner (List.mem_filter.mp hsite').2
      (hwindow₂.marks h hsite')

-- ---------------------------------------------------------------------------
-- The checks
-- ---------------------------------------------------------------------------

section Rows

variable {sites rest : List Site} {a o b : Site} {i j : Nat}

theorem take_of_drop (h : sites.drop i = a :: rest) :
    sites.take (i + 1) = sites.take i ++ [a] := by
  have hget : sites[i]? = some a := by rw [← List.head?_drop, h, List.head?_cons]
  rw [List.take_add_one, hget]
  rfl

theorem mem_take_of_drop (h : sites.drop i = a :: rest) : a ∈ sites.take (i + 1) := by
  rw [take_of_drop h]
  exact List.mem_append_right _ List.mem_cons_self

theorem drop_of_drop (h : sites.drop i = a :: rest) : sites.drop (i + 1) = rest := by
  rw [← List.tail_drop, h, List.tail_cons]

theorem mem_drop_of_lt (h : sites.drop j = a :: rest) (hlt : i < j) : a ∈ sites.drop (i + 1) := by
  have hmem : a ∈ sites.drop j := h ▸ List.mem_cons_self
  rw [show j = i + 1 + (j - (i + 1)) by omega, ← List.drop_drop] at hmem
  exact List.mem_of_mem_drop hmem

end Rows

theorem isReport_dropConcatOfLists (h : tree.IsParsed) :
    IsReport (.root tree) 6 (dropConcatOfLists (.ofTree tree fields)) := by
  refine isReport_windows h .dropConcatOfLists _ rfl rfl rfl ⟨fun chain i captures hrow => ?_,
    fun chain i j captures captures' hlt _ hrow a ha => ?_⟩
  · obtain ⟨a, o, b, rest, ca, co, cb, hdrop, hca, hco, hcb, rfl⟩ := rowMatch?_three hrow
    obtain ⟨-, rfl⟩ := head?_matches_any hca
    obtain ⟨-, rfl⟩ := head?_matches_any hco
    obtain ⟨-, rfl⟩ := head?_matches_any hcb
    exact ⟨a, mem_take_of_drop hdrop, b, by rw [drop_of_drop hdrop]; simp, rfl, rfl⟩
  · obtain ⟨a', o, b, rest, ca, co, cb, hdrop, hca, hco, hcb, rfl⟩ := rowMatch?_three hrow
    obtain ⟨-, rfl⟩ := head?_matches_any hca
    obtain ⟨-, rfl⟩ := head?_matches_any hco
    obtain ⟨-, rfl⟩ := head?_matches_any hcb
    obtain rfl := Option.some.inj ha
    exact mem_drop_of_lt hdrop hlt

/-- What is asked of the list in front of `++` gives no further names. -/
theorem head?_matches_singleton {site : Site} (h : ((((Shape.node .listExpr).withRow .exact
      [.any]).capture "single").matches site).head? = some captures) :
    captures = [("single", site)] := by
  obtain ⟨-, inner, hinner, rfl⟩ := mem_matches (List.mem_of_mem_head? h)
  have hinner : inner ∈ (ChildRule.row .exact [.any]).matches site := hinner
  rw [ChildRule.matches] at hinner
  obtain ⟨start, -, hrow⟩ := List.mem_filterMap.mp hinner
  obtain ⟨_, _, first, others, -, hfirst, hothers, rfl⟩ := rowMatch?_cons hrow
  obtain ⟨-, rfl⟩ := head?_matches_any hfirst
  obtain rfl := Option.some.inj hothers
  rfl

theorem isReport_useConsOverConcat (h : tree.IsParsed) :
    IsReport (.root tree) 8 (useConsOverConcat (.ofTree tree fields)) := by
  refine isReport_windows h .useConsOverConcat _ rfl rfl rfl ⟨fun chain i captures hrow => ?_,
    fun chain i j captures captures' hlt _ hrow a ha => ?_⟩
  · obtain ⟨a, o, b, rest, ca, co, cb, hdrop, hca, hco, hcb, rfl⟩ := rowMatch?_three hrow
    obtain rfl := head?_matches_singleton hca
    obtain ⟨-, rfl⟩ := head?_matches_any hco
    obtain ⟨-, rfl⟩ := head?_matches_any hcb
    exact ⟨a, mem_take_of_drop hdrop, b, by rw [drop_of_drop hdrop]; simp, rfl, rfl⟩
  · obtain ⟨a', o, b, rest, ca, co, cb, hdrop, hca, hco, hcb, rfl⟩ := rowMatch?_three hrow
    obtain rfl := head?_matches_singleton hca
    obtain ⟨-, rfl⟩ := head?_matches_any hco
    obtain ⟨-, rfl⟩ := head?_matches_any hcb
    obtain rfl := Option.some.inj ha
    exact mem_drop_of_lt hdrop hlt

-- ---------------------------------------------------------------------------
-- Items in front of `::`
-- ---------------------------------------------------------------------------

/-- The nodes in front of a child, the nearest first. -/
theorem partsBefore_of_children {front rest : List Site} {item : Site}
    (h : chain.children = front ++ item :: rest) :
    item.partsBefore.filter (·.tree.isNode) = front.reverse := by
  obtain ⟨before, _, hparts, hbefore, hafter⟩ := List.filter_eq_append_iff.mp h
  obtain ⟨skipped, after, rfl, hskipped, -, -⟩ := List.filter_eq_cons_iff.mp hafter
  rw [← List.append_assoc] at hparts
  rw [Site.partsBefore_of_parts hparts, List.filter_reverse, List.filter_append, hbefore,
    List.filter_eq_nil_iff.mpr hskipped, List.append_nil]

theorem consRunStart_mem (operand : Site) (before : List Site) :
    consRunStart operand before ∈ operand :: before := by
  fun_induction consRunStart operand before with
  | case1 operand operator previous before hop ih =>
    obtain heq | hmem := List.mem_cons.mp ih
    · rw [heq]
      simp
    · simp [hmem]
  | case2 | case3 => exact List.mem_cons_self

/-- The run ends behind an operator that does not bind tighter, if what stands next to this operator
is an operand. -/
theorem consRunStart_mem_of_stop {operand operator : Site} {before more : List Site}
    (hoperator : bindsTighterThanCons operator.significantText = false)
    (hlast : ∀ last ∈ before.getLast?, last.kind ≠ .operator) :
    consRunStart operand (before ++ operator :: more) ∈ operand :: before := by
  match before with
  | [] =>
    cases more with
    | nil => exact List.mem_cons_self
    | cons previous more =>
      rw [List.nil_append, consRunStart, hoperator, Bool.and_false]
      exact List.mem_cons_self
  | [next] =>
    have hkind : next.kind ≠ .operator := hlast next rfl
    rw [List.singleton_append, consRunStart, decide_eq_false hkind, Bool.false_and]
    exact List.mem_cons_self
  | next :: previous :: before =>
    rw [List.cons_append, List.cons_append, consRunStart]
    split
    · refine List.mem_cons_of_mem _ (List.mem_cons_of_mem _
        (consRunStart_mem_of_stop hoperator fun last hget => hlast last ?_))
      cases before with
      | nil => cases hget
      | cons => exact hget
    · exact List.mem_cons_self

theorem isReport_dropConsOfItemAndList (h : tree.IsParsed) :
    IsReport (.root tree) 7 (dropConsOfItemAndList (.ofTree tree fields)) := by
  have hcons {o : Site} (ho : (operatorShape "::").rule.accepts o = true) :
      o.kind = .operator ∧ bindsTighterThanCons o.significantText = false := by
    refine ⟨kind_of_accepts ho rfl, ?_⟩
    have htext : o.significantText = "::" := by
      simp [operatorShape, Shape.textIn, Shape.node, Shape.rule, NodeRule.accepts] at ho
      exact ho.2
    rw [htext]
    rfl
  refine isReport_windows h .dropConsOfItemAndList _ rfl rfl rfl ⟨fun chain i captures hrow => ?_,
    fun chain i j captures captures' hlt hrow hrow' start hstart => ?_⟩
  · obtain ⟨a, o, b, rest, ca, co, cb, hdrop, hca, hco, hcb, rfl⟩ := rowMatch?_three hrow
    obtain ⟨-, rfl⟩ := head?_matches_any hca
    obtain ⟨-, rfl⟩ := head?_matches_any hco
    obtain ⟨-, rfl⟩ := head?_matches_any hcb
    refine ⟨consItemStart a, ?_, b, by rw [drop_of_drop hdrop]; simp, rfl, rfl⟩
    have hsplit : chain.children = chain.children.take i ++ a :: o :: b :: rest := by
      rw [← hdrop, List.take_append_drop]
    have hmem := consRunStart_mem a (chain.children.take i).reverse
    rw [consItemStart, partsBefore_of_children hsplit, take_of_drop hdrop]
    simpa [or_comm] using hmem
  · obtain ⟨a, o, b, rest, ca, co, cb, hdrop, hca, hco, hcb, rfl⟩ := rowMatch?_three hrow
    obtain ⟨a', o', b', rest', ca', co', cb', hdrop', hca', hco', hcb', rfl⟩ :=
      rowMatch?_three hrow'
    obtain ⟨-, rfl⟩ := head?_matches_any hca'
    obtain ⟨ho, -⟩ := head?_matches_any hco
    obtain ⟨ho', rfl⟩ := head?_matches_any hco'
    obtain ⟨hb, -⟩ := head?_matches_any hcb
    obtain ⟨-, rfl⟩ := head?_matches_any hcb'
    obtain rfl := Option.some.inj hstart
    have hbehind := drop_of_drop (drop_of_drop hdrop)
    obtain ⟨k, rfl⟩ := Nat.exists_eq_add_of_lt hlt
    cases k with
    | zero =>
      -- the list behind the first `::` would be the second `::`
      rw [Nat.add_zero, drop_of_drop hdrop] at hdrop'
      obtain ⟨-, rfl, -⟩ : o = a' ∧ b = o' ∧ rest = b' :: rest' := by simpa using hdrop'
      exact absurd ((kind_of_accepts hb rfl).symm.trans (hcons ho').1) (by decide)
    | succ k =>
      have hmiddle : b :: rest = (b :: rest).take k ++ a' :: o' :: b' :: rest' := by
        rw [← hdrop', show i + (k + 1) + 1 = i + 1 + 1 + k by omega, ← List.drop_drop, hbehind,
          List.take_append_drop]
      have hsplit : chain.children =
          (chain.children.take i ++ a :: o :: (b :: rest).take k) ++ a' :: o' :: b' :: rest' := by
        rw [List.append_assoc, List.cons_append, List.cons_append, ← hmiddle, ← hdrop,
          List.take_append_drop]
      have hmem : consItemStart a' ∈ a' :: ((b :: rest).take k).reverse := by
        rw [consItemStart, partsBefore_of_children hsplit, List.reverse_append,
          List.reverse_cons, List.reverse_cons, List.append_assoc, List.append_assoc]
        refine consRunStart_mem_of_stop (hcons ho).2 fun last hlast => ?_
        rw [List.getLast?_reverse] at hlast
        cases k with
        | zero => cases hlast
        | succ k =>
          obtain rfl := Option.some.inj hlast
          rw [kind_of_accepts hb rfl]
          decide
      show consItemStart a' ∈ chain.children.drop (i + 1)
      rw [drop_of_drop hdrop]
      refine List.mem_cons_of_mem _ ?_
      rw [hmiddle]
      obtain heq | hmem := List.mem_cons.mp hmem
      · rw [heq]
        exact List.mem_append_right _ List.mem_cons_self
      · exact List.mem_append_left _ (List.mem_reverse.mp hmem)

end ElmLint.Lint
