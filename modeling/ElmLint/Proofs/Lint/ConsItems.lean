import ElmLint.Proofs.Lint.Matching
import ElmLint.Proofs.Lint.Precedence
import ElmLint.Proofs.Lint.Reported

/-!
# Items in front of `::`

A chain is flat, and the item that `::` puts in front of a list literal is found by going back over
the operators that bind tighter. It is what resolving the chain by precedence gives `::` on its left.
-/

namespace ElmLint.Lint

open Syntax
open Grouping (EndsWithRun IsRunStart operands)

variable {chain operator list : Site} {tree : Tree} {text : String} {i j start : Nat}

-- ---------------------------------------------------------------------------
-- Chains of operands and operators
-- ---------------------------------------------------------------------------

/-- The operators among nodes that begin with one, each with the operand behind it. -/
def linksOf : List Site → List (Site × Site)
  | operator :: operand :: nodes => (operator, operand) :: linksOf nodes
  | _ => []

/-- The operators of a chain, each with the operand behind it. -/
def links (chain : Site) : List (Site × Site) := linksOf chain.children.tail

/-- The operands of a chain. -/
def operandsOf (chain : Site) : List Site := chain.children.take 1 ++ (links chain).map (·.2)

/-- The operator number `i` of the chain is `::`, with a list literal behind it. -/
def ConsesOntoList (chain : Site) (i : Nat) (list : Site) : Prop :=
  chain.kind = .binOpExpr ∧ ∃ operator, (links chain)[i]? = some (operator, list) ∧
    operator.significantText = "::" ∧ list.kind = .listExpr

/-- The operator binds tighter than `::`. -/
def BindsTighter (operator : Site) : Prop :=
  ∃ level, precedence? operator.significantText = some level ∧ 5 < level

/-- What the operator number `i` has in front of it: the operand `start` and the operators `run`,
from the first operand on from which all operators bind tighter than `::`. -/
def IsItem (chain : Site) (i : Nat) (start : Site) (run : List (Site × Site)) : Prop :=
  ∃ j, IsRunStart BindsTighter ((links chain).take i) j ∧ (operandsOf chain)[j]? = some start ∧
    run = ((links chain).take i).drop j

/-- A first operand, and the links behind it as nodes. -/
def spread (first : Site) (links : List (Site × Site)) : List Site :=
  first :: links.flatMap fun link => [link.1, link.2]

/-- The nodes of the chain are operands and operators by turns. Behind them there may be an operator
that lacks its operand. -/
structure IsSpread (chain first : Site) (rest : List Site) : Prop where
  children_eq : chain.children = spread first (links chain) ++ rest
  first_kind : first.kind ≠ .operator
  links_kind : ∀ link ∈ links chain, link.1.kind = .operator ∧ link.2.kind ≠ .operator
  rest_length : rest.length ≤ 1

theorem linksOf_of_operatorRow {nodes : List Site} (h : OperatorRow (nodes.map Site.kind)) :
    ∃ rest : List Site, rest.length ≤ 1 ∧
      nodes = ((linksOf nodes).flatMap fun link => [link.1, link.2]) ++ rest ∧
      ∀ link ∈ linksOf nodes, link.1.kind = .operator ∧ link.2.kind ≠ .operator := by
  match nodes with
  | [] => exact ⟨[], by simp, rfl, nofun⟩
  | [operator] => exact ⟨[operator], by simp, rfl, nofun⟩
  | operator :: operand :: nodes =>
    rw [List.map_cons, List.map_cons] at h
    generalize hoperator : operator.kind = kind, hoperand : operand.kind = kind',
      hnodes : nodes.map Site.kind = row at h
    cases h with
    | pair hkind hrow =>
      rw [← hnodes] at hrow
      obtain ⟨rest, hlength, heq, hkinds⟩ := linksOf_of_operatorRow hrow
      refine ⟨rest, hlength, by rw [linksOf, List.flatMap_cons, List.append_assoc, ← heq]; rfl, ?_⟩
      refine List.forall_mem_cons.mpr ⟨⟨hoperator, fun heq => ?_⟩, hkinds⟩
      rw [← hoperand, heq] at hkind
      exact absurd hkind (by decide)

theorem exists_isSpread (h : tree.IsFile) (hchain : chain ∈ (Site.root tree).nodes)
    (hkind : chain.kind = .binOpExpr) : ∃ first rest, IsSpread chain first rest := by
  have hkeeps := h.keeps hchain
  rw [hkind, Tree.Keeps, Site.nodeKinds_children] at hkeeps
  obtain ⟨operand, hoperand, row, hrow, hword⟩ := hkeeps
  obtain ⟨first, nodes, hchildren, rfl, rfl⟩ := List.map_eq_cons_iff.mp hword
  obtain ⟨rest, hlength, hnodes, hkinds⟩ := linksOf_of_operatorRow hrow
  have hlinks : links chain = linksOf nodes := by rw [links, hchildren, List.tail_cons]
  refine ⟨first, rest, ?_, ?_, hlinks ▸ hkinds, hlength⟩
  · rw [hchildren, hlinks, spread, List.cons_append, ← hnodes]
  · rintro heq
    rw [heq] at hoperand
    exact absurd hoperand (by decide)

theorem length_spread (first : Site) (links : List (Site × Site)) :
    (spread first links).length = 2 * links.length + 1 := by
  simp [spread, List.length_flatMap, Nat.mul_comm]

/-- From the operand number `i` on the nodes are a chain of their own. -/
theorem drop_spread (first : Site) (links : List (Site × Site)) (h : i ≤ links.length) :
    ∃ operand, (operands first links)[i]? = some operand ∧
      (spread first links).drop (2 * i) = spread operand (links.drop i) := by
  induction i generalizing first links with
  | zero => exact ⟨first, rfl, rfl⟩
  | succ i ih =>
    cases links with
    | nil => simp at h
    | cons link links =>
      obtain ⟨operand, hoperand, hdrop⟩ := ih link.2 links (by simpa using h)
      exact ⟨operand, hoperand, hdrop⟩

theorem IsSpread.drop {first : Site} {rest : List Site} (h : IsSpread chain first rest)
    (hi : i ≤ (links chain).length) :
    ∃ operand, (operands first (links chain))[i]? = some operand ∧
      chain.children.drop (2 * i) = spread operand ((links chain).drop i) ++ rest := by
  obtain ⟨operand, hoperand, hdrop⟩ := drop_spread first (links chain) hi
  refine ⟨operand, hoperand, ?_⟩
  rw [h.children_eq, List.drop_append_of_le_length (by rw [length_spread]; omega), hdrop]

theorem IsSpread.drop_of_link {first : Site} {rest : List Site} (h : IsSpread chain first rest)
    (hlink : (links chain)[i]? = some (operator, list)) :
    ∃ item behind, (operands first (links chain))[i]? = some item ∧
      chain.children.drop (2 * i) = item :: operator :: list :: behind := by
  obtain ⟨hi, hget⟩ := List.getElem?_eq_some_iff.mp hlink
  obtain ⟨item, hitem, hdrop⟩ := h.drop hi.le
  rw [List.drop_eq_getElem_cons hi, hget] at hdrop
  exact ⟨item, _, hitem, hdrop⟩

theorem drop_eq_cons_iff {α : Type} {l rest : List α} {a : α} {n : Nat} :
    l.drop n = a :: rest ↔ ∃ before, l = before ++ a :: rest ∧ before.length = n := by
  constructor
  · intro h
    have hlt : n < l.length := by
      by_contra hle
      rw [List.drop_eq_nil_of_le (by omega)] at h
      cases h
    exact ⟨l.take n, by rw [← h, List.take_append_drop], by simp; omega⟩
  · rintro ⟨before, rfl, rfl⟩
    exact List.drop_left ..

/-- What the shape asks of the nodes in a row. -/
def consRow : List Shape :=
  [Shape.any.capture "item", operatorShape "::", (Shape.node .listExpr).capture "list"]

theorem rowFits_consRow {window : List Site} : RowFits consRow window ↔
    ∃ item operator list, window = [item, operator, list] ∧ operator.kind = .operator ∧
      operator.significantText = "::" ∧ list.kind = .listExpr := by
  simp [consRow, operatorShape, Shape.node, Shape.capture, Shape.textIn, Shape.any, Shape.rule,
    Shape.childRule, RowFits, Shape.Fits, ChildRule.Fits, ← accepts_iff, NodeRule.accepts,
    and_assoc]

/-- The shape stands at the child number `start`: there is an operand, then `::`, then a list. -/
theorem consOfItemAndList_fitsFrom : consOfItemAndList.FitsFrom chain start ↔
    chain.kind = .binOpExpr ∧ ∃ item operator list rest,
      chain.children.drop start = item :: operator :: list :: rest ∧ operator.kind = .operator ∧
      operator.significantText = "::" ∧ list.kind = .listExpr := by
  have hrule : consOfItemAndList.rule.Admits chain ↔ chain.kind = .binOpExpr := by
    simp [consOfItemAndList, Shape.withRow, Shape.node, Shape.rule, ← accepts_iff,
      NodeRule.accepts]
  rw [Shape.FitsFrom, hrule]
  refine and_congr_right fun _ => ?_
  change (∃ before window after, chain.children = before ++ (window ++ after) ∧
    before.length = start ∧ True ∧ RowFits consRow window) ↔ _
  simp only [rowFits_consRow, drop_eq_cons_iff]
  constructor
  · rintro ⟨before, _, after, hchildren, hstart, -, item, operator, list, rfl, hasked⟩
    exact ⟨item, operator, list, after, ⟨before, hchildren, hstart⟩, hasked⟩
  · rintro ⟨item, operator, list, rest, ⟨before, hchildren, hstart⟩, hasked⟩
    exact ⟨before, _, rest, hchildren, hstart, trivial, item, operator, list, rfl, hasked⟩

theorem capturesFrom_consOfItemAndList {item operator list : Site} {rest : List Site}
    (hdrop : chain.children.drop start = item :: operator :: list :: rest)
    (hoperator : operator.kind = .operator) (htext : operator.significantText = "::")
    (hlist : list.kind = .listExpr) :
    consOfItemAndList.capturesFrom chain start = [("item", item), ("list", list)] := by
  have hpartners : consOfItemAndList.childRule.partners chain start =
      consRow.zip (item :: operator :: list :: rest) := congrArg (consRow.zip ·) hdrop
  rw [Shape.capturesFrom, hpartners]
  simp [consRow, consOfItemAndList, operatorShape, Shape.withRow, Shape.node, Shape.capture,
    Shape.textIn, Shape.any, Shape.rule, Shape.childRule, firstCaptures, matches_mk,
    ChildRule.matches, NodeRule.accepts, NodeRule.captures, hoperator, htext, hlist]

theorem consOfItemAndList_fitsFrom_iff (h : tree.IsFile) (hchain : chain ∈ (Site.root tree).nodes) :
    consOfItemAndList.FitsFrom chain start ↔ ∃ i list, start = 2 * i ∧ ConsesOntoList chain i list := by
  rw [consOfItemAndList_fitsFrom]
  constructor
  · rintro ⟨hkind, item, operator, list, after, hdrop, hoperator, htext, hlist⟩
    obtain ⟨first, rest, hspread⟩ := exists_isSpread h hchain hkind
    have hlength : start + 3 ≤ 2 * (links chain).length + 1 + rest.length := by
      have hlt := congrArg List.length hdrop
      rw [hspread.children_eq] at hlt
      simp only [List.length_drop, List.length_append, length_spread, List.length_cons] at hlt
      omega
    have hrest := hspread.rest_length
    -- in front of the item there are `i` links, and not an operator more
    obtain ⟨i, hstart⟩ : ∃ i, start = 2 * i ∨ start = 2 * i + 1 := ⟨start / 2, by omega⟩
    have hi : i < (links chain).length := by omega
    obtain ⟨operand, -, hdrop'⟩ := hspread.drop hi.le
    obtain ⟨link, behind, hlinks, hget⟩ : ∃ link behind, (links chain).drop i = link :: behind ∧
        (links chain)[i]? = some link :=
      ⟨_, _, List.drop_eq_getElem_cons hi, List.getElem?_eq_getElem hi⟩
    obtain hstart | rfl := hstart
    · refine ⟨i, list, hstart, hkind, operator, ?_, htext, hlist⟩
      rw [← hstart, hdrop, hlinks] at hdrop'
      obtain ⟨-, rfl, rfl, -⟩ : item = operand ∧ operator = link.1 ∧ list = link.2 ∧ _ := by
        simpa [spread] using hdrop'
      exact hget
    · rw [← List.tail_drop, hdrop', hlinks] at hdrop
      obtain ⟨-, rfl, -⟩ : link.1 = item ∧ link.2 = operator ∧ _ := by simpa [spread] using hdrop
      exact absurd hoperator (hspread.links_kind _ (List.mem_of_getElem? hget)).2
  · rintro ⟨i, list, rfl, hkind, operator, hlink, htext, hlist⟩
    obtain ⟨first, rest, hspread⟩ := exists_isSpread h hchain hkind
    obtain ⟨item, behind, -, hdrop⟩ := hspread.drop_of_link hlink
    exact ⟨hkind, item, operator, list, behind, hdrop,
      (hspread.links_kind _ (List.mem_of_getElem? hlink)).1, htext, hlist⟩

-- ---------------------------------------------------------------------------
-- Going back over the operators
-- ---------------------------------------------------------------------------

theorem spread_append (first : Site) (links : List (Site × Site)) (link : Site × Site) :
    spread first (links ++ [link]) = spread first links ++ [link.1, link.2] := by
  simp [spread]

/-- The operators that are gone over are a run of tight ones at the end of the chain. -/
theorem endsWithRun_consRunStart {first item : Site} {links : List (Site × Site)} {front : List Site}
    (hkinds : ∀ link ∈ links, link.1.kind = .operator) (h : spread first links = front ++ [item]) :
    ∃ run, EndsWithRun (fun operator => bindsTighterThanCons operator.significantText = true) first
      links (consRunStart item front.reverse) run := by
  induction links using List.reverseRecOn generalizing front item with
  | nil =>
    obtain ⟨rfl, hitem⟩ := List.append_inj' (show [] ++ [first] = front ++ [item] from h) rfl
    obtain rfl := List.singleton_inj.mp hitem
    exact ⟨[], nofun, .inl ⟨rfl, rfl⟩⟩
  | append_singleton links link ih =>
    obtain ⟨hlinks, hlink⟩ := List.forall_mem_append.mp hkinds
    obtain ⟨front', item', hspread⟩ : ∃ front' item', spread first links = front' ++ [item'] :=
      ⟨_, _, (List.dropLast_append_getLast (List.cons_ne_nil _ _)).symm⟩
    obtain ⟨rfl, hitem⟩ : front' ++ [item', link.1] = front ∧ [link.2] = [item] := by
      refine List.append_inj' ?_ rfl
      rw [← h, spread_append, hspread]
      simp
    obtain rfl := List.singleton_inj.mp hitem
    rw [List.reverse_append, List.reverse_cons, List.reverse_singleton, List.append_assoc,
      List.singleton_append, List.singleton_append, consRunStart, hlink link (List.mem_singleton_self link)]
    cases htight : bindsTighterThanCons link.1.significantText with
    | true =>
      obtain ⟨run, hrun, hstop⟩ := ih hlinks hspread
      refine ⟨run ++ [link], List.forall_mem_append.mpr ⟨hrun, by simpa using htight⟩, ?_⟩
      obtain ⟨rfl, hfirst⟩ | ⟨outer, operator, rfl, hloose⟩ := hstop
      · exact .inl ⟨rfl, hfirst⟩
      · exact .inr ⟨outer, operator, by simp, hloose⟩
    | false => exact ⟨[], nofun, .inr ⟨links, link.1, rfl, by simp [htight]⟩⟩

theorem bindsTighter_iff :
    bindsTighterThanCons operator.significantText = true ↔ BindsTighter operator := by
  simp only [bindsTighterThanCons, BindsTighter, Option.any_eq_true, decide_eq_true_eq]
  rfl

theorem take_spread (first : Site) (links : List (Site × Site)) :
    (spread first links).take (2 * i + 1) = spread first (links.take i) := by
  induction i generalizing first links with
  | zero => rfl
  | succ i ih =>
    cases links with
    | nil => rfl
    | cons link links => exact congrArg (first :: link.1 :: ·) (ih link.2 links)

theorem IsSpread.operandsOf_eq {first : Site} {rest : List Site} (h : IsSpread chain first rest) :
    operandsOf chain = operands first (links chain) := by
  rw [operandsOf, h.children_eq]
  rfl

/-- A run of tight operators at the end of what is in front of an operator is its item. -/
theorem IsSpread.isItem {first start : Site} {rest : List Site} {run : List (Site × Site)}
    (h : IsSpread chain first rest)
    (hrun : EndsWithRun BindsTighter first ((links chain).take i) start run) :
    IsItem chain i start run := by
  obtain ⟨j, hj, hstart, hrun⟩ := hrun.exists_isRunStart
  refine ⟨j, hj, ?_, hrun⟩
  have hprefix : operands first (links chain) =
      operands first ((links chain).take i) ++ ((links chain).drop i).map (·.2) := by
    rw [operands, operands, List.cons_append, ← List.map_append, List.take_append_drop]
  obtain ⟨hlt, -⟩ := List.getElem?_eq_some_iff.mp hstart
  rw [h.operandsOf_eq, hprefix, List.getElem?_append_left hlt, hstart]

-- ---------------------------------------------------------------------------
-- Findings
-- ---------------------------------------------------------------------------

theorem dropConsOfItemAndList_eq (tree : Tree) (fields : String → Option (List String)) :
    ∃ message, dropConsOfItemAndList (.ofTree tree fields) =
      (findMatches (.root tree) consOfItemAndList).filterMap fun m =>
        ((m.captures.get? "item").map consItemStart).bind fun first =>
          (m.captures.get? "list").map (Finding.between .dropConsOfItemAndList message first) :=
  ⟨_, reportBetween_eq ..⟩

section Findings

variable (h : tree.IsFile) (hparsed : tree.IsParsed) (hchain : chain ∈ (Site.root tree).nodes)
  (hcons : ConsesOntoList chain i list)
include h hchain hcons

/-- What a match at the operator number `i` gives names to, and what is found from its item on. -/
theorem exists_captures : ∃ item run, consOfItemAndList.capturesFrom chain (2 * i) =
      [("item", item), ("list", list)] ∧ IsItem chain i (consItemStart item) run ∧
      consItemStart item ∈ chain.children.take (2 * i + 1) ∧
      list ∈ chain.children.drop (2 * i + 1) := by
  obtain ⟨hkind, operator, hlink, htext, hlist⟩ := hcons
  obtain ⟨first, rest, hspread⟩ := exists_isSpread h hchain hkind
  obtain ⟨item, behind, -, hdrop⟩ := hspread.drop_of_link hlink
  have hoperator := (hspread.links_kind _ (List.mem_of_getElem? hlink)).1
  have hfront : spread first ((links chain).take i) = chain.children.take (2 * i) ++ [item] := by
    obtain ⟨hi, -⟩ := List.getElem?_eq_some_iff.mp hlink
    rw [← take_of_drop hdrop, hspread.children_eq, ← take_spread, List.take_append_of_le_length]
    rw [length_spread]
    omega
  obtain ⟨run, hrun⟩ := endsWithRun_consRunStart
    (fun link hmem => (hspread.links_kind link (List.mem_of_mem_take hmem)).1) hfront
  simp only [bindsTighter_iff] at hrun
  have hstart : consItemStart item = consRunStart item (chain.children.take (2 * i)).reverse := by
    have hsplit : chain.children =
        chain.children.take (2 * i) ++ item :: operator :: list :: behind := by
      rw [← hdrop, List.take_append_drop]
    rw [consItemStart, partsBefore_of_children hsplit]
  refine ⟨item, run, capturesFrom_consOfItemAndList hdrop hoperator htext hlist, ?_, ?_, ?_⟩
  · rw [hstart]
    exact hspread.isItem hrun
  · have hmem := consRunStart_mem item (chain.children.take (2 * i)).reverse
    rw [hstart, take_of_drop hdrop]
    simpa [or_comm] using hmem
  · rw [drop_of_drop hdrop]
    simp

include hparsed

theorem exists_consFinding (message : String) : ∃ start run f,
    (((consOfItemAndList.capturesFrom chain (2 * i)).get? "item").map consItemStart).bind
      (fun first => ((consOfItemAndList.capturesFrom chain (2 * i)).get? "list").map
        (Finding.between .dropConsOfItemAndList message first)) = some f ∧
    f.code = .dropConsOfItemAndList ∧ IsItem chain i start run ∧
    f.range = ⟨start.significantRange.start, list.significantRange.stop⟩ := by
  obtain ⟨item, run, hcaptures, hitem, hfirst, hlast⟩ := exists_captures h hchain hcons
  have hwindow : IsWindow chain (consItemStart item) list
      (.between .dropConsOfItemAndList message (consItemStart item) list) :=
    ⟨hcons.1, List.mem_of_mem_take hfirst, List.mem_of_mem_drop hlast, stop_le_start hfirst hlast,
      rfl, rfl⟩
  exact ⟨_, run, _, by rw [hcaptures]; rfl, rfl, hitem, hwindow.range_eq_mk hparsed hchain⟩

end Findings

-- ---------------------------------------------------------------------------
-- Reports
-- ---------------------------------------------------------------------------

/-- The diagnostic is on the operator number `i` of the chain. It goes from the start of the item to
the end of the list. -/
structure ReportsCons (text : String) (d : Diagnostic) (place : Site × Nat) : Prop where
  code_eq : d.code = LintCode.dropConsOfItemAndList.name
  span : ∃ start run list, IsItem place.1 place.2 start run ∧ ConsesOntoList place.1 place.2 list ∧
    (LineIndex.ofText text).range? d.span =
      some ⟨start.significantRange.start, list.significantRange.stop⟩

/-- The tree is that of the chain by precedence. -/
structure Resolves (level : Site → Nat) (groups : Nat → Side) (chain : Site) (t : Grouping Site) :
    Prop where
  isResolved : t.IsResolved level groups
  first_eq : chain.children.head? = some t.first
  links_eq : t.links = links chain

theorem existsUnique_resolves {first : Site} {rest : List Site} (h : IsSpread chain first rest)
    (level : Site → Nat) (groups : Nat → Side) : ∃! t, Resolves level groups chain t := by
  have hfirst : chain.children.head? = some first := by rw [h.children_eq]; rfl
  obtain ⟨t, ⟨hresolved, hstart, hlinks⟩, hunique⟩ :=
    Grouping.existsUnique_isResolved level groups first (links chain)
  refine ⟨t, ⟨hresolved, by rw [hfirst, hstart], hlinks⟩, fun t' h' => hunique t' ?_⟩
  exact ⟨h'.isResolved, Option.some.inj (h'.first_eq.symm.trans hfirst), h'.links_eq⟩

/-- Resolving gives `::` its item on the left. -/
theorem Resolves.isItem {first : Site} {rest : List Site} {level : Site → Nat} {groups : Nat → Side}
    {t : Grouping Site} (hspread : IsSpread chain first rest) (hcons : ConsesOntoList chain i list)
    (hlevel : ∀ link ∈ links chain, precedence? link.1.significantText = some (level link.1))
    (hgroups : groups 5 = .right) (h : Resolves level groups chain t) :
    ∃ left, t.leftOf? i = some left ∧ IsItem chain i left.first left.links := by
  obtain ⟨-, operator, hlink, htext, -⟩ := hcons
  have hoperator : level operator = 5 := by
    have hcons := hlevel _ (List.mem_of_getElem? hlink)
    rw [htext] at hcons
    exact (Option.some.inj hcons).symm
  obtain ⟨hi, hget⟩ := List.getElem?_eq_some_iff.mp hlink
  have hlinks : t.links = (links chain).take i ++ (operator, list) :: (links chain).drop (i + 1) := by
    rw [h.links_eq, ← hget, ← List.drop_eq_getElem_cons hi, List.take_append_drop]
  obtain ⟨left, hleft, hrun⟩ := h.isResolved.leftOf? hlinks (by rw [hoperator, hgroups])
  have hfirst : t.first = first := by
    have heq := h.first_eq
    rw [hspread.children_eq] at heq
    exact (Option.some.inj heq).symm
  rw [List.length_take_of_le hi.le] at hleft
  rw [hoperator, hfirst] at hrun
  refine ⟨left, hleft, hspread.isItem (hrun.congr fun link hmem => ?_)⟩
  rw [BindsTighter, hlevel link (List.mem_of_mem_take hmem)]
  simp

/-- The places of the operators that are reported. -/
theorem exists_consPlaces (h : tree.IsFile) : ∃ places : List (Site × Nat), places.Nodup ∧
    (∀ chain i, (chain, i) ∈ places ↔
      chain ∈ (Site.root tree).nodes ∧ ∃ list, ConsesOntoList chain i list) ∧
    findMatches (.root tree) consOfItemAndList =
      places.map fun p => ⟨p.1, consOfItemAndList.capturesFrom p.1 (2 * p.2)⟩ := by
  obtain ⟨starts, hordered, hmem, hmatches⟩ := exists_places (.root tree) consOfItemAndList
  have heven {p : Site × Nat} (hp : p ∈ starts) : 2 * (p.2 / 2) = p.2 := by
    obtain ⟨hchain, hfits⟩ := (hmem p.1 p.2).mp hp
    obtain ⟨i, -, heq, -⟩ := (consOfItemAndList_fitsFrom_iff h hchain).mp hfits
    omega
  refine ⟨starts.map fun p => (p.1, p.2 / 2), ?_, fun chain i => ?_, ?_⟩
  · refine List.pairwise_map.mpr (hordered.imp_of_mem fun {p q} hp hq hfirst heq => ?_)
    obtain ⟨hchain, hhalf⟩ := Prod.mk.inj heq
    obtain hlt | ⟨-, hlt⟩ := hfirst
    · rw [hchain] at hlt
      exact List.lt_irrefl _ hlt
    · have := heven hp
      have := heven hq
      omega
  · have hhalf : (chain, i) ∈ starts.map (fun p => (p.1, p.2 / 2)) ↔ (chain, 2 * i) ∈ starts := by
      constructor
      · intro hplace
        obtain ⟨p, hp, heq⟩ := List.mem_map.mp hplace
        obtain ⟨rfl, rfl⟩ := Prod.mk.inj heq
        rwa [heven hp]
      · exact fun hplace => List.mem_map.mpr ⟨_, hplace, by simp⟩
    rw [hhalf, hmem]
    refine and_congr_right fun hchain => ?_
    rw [consOfItemAndList_fitsFrom_iff h hchain]
    constructor
    · rintro ⟨i', list, heq, hcons⟩
      obtain rfl : i = i' := by omega
      exact ⟨list, hcons⟩
    · exact fun ⟨list, hcons⟩ => ⟨i, list, rfl, hcons⟩
  · rw [hmatches, List.map_map]
    refine List.map_congr_left fun p hp => ?_
    rw [Function.comp_apply, heven hp]

/-- The nodes of a chain are operands and operators by turns. For every operator `::` in front of a
list literal there is one diagnostic, and no other of this code. It goes from the item in front of
the operator to the end of the list; and where all operators of the chain have a precedence, the item
is what the operator has on its left in the tree of the chain by precedence, if operators of the
level of `::` group to the right. -/
theorem reports_dropConsOfItemAndList (text : String)
    (fields : String → Option (List String)) (disabled : List LintCode) :
    (∀ chain ∈ (Site.root (parse text).tree).nodes, chain.kind = .binOpExpr →
      ∃ first rest, IsSpread chain first rest) ∧
    ∃ places : List (Site × Nat), places.Nodup ∧
      (∀ chain i, (chain, i) ∈ places ↔
        chain ∈ (Site.root (parse text).tree).nodes ∧ ∃ list, ConsesOntoList chain i list) ∧
      List.Forall₂ (ReportsCons text)
        ((lintTree (parse text).tree (.ofText text) fields disabled).filter
          (·.code = LintCode.dropConsOfItemAndList.name))
        (if .dropConsOfItemAndList ∈ disabled then [] else places) ∧
      ∀ chain i, (chain, i) ∈ places → ∀ (level : Site → Nat) (groups : Nat → Side),
        (∀ link ∈ links chain, precedence? link.1.significantText = some (level link.1)) →
        groups 5 = .right → (∃! t, Resolves level groups chain t) ∧
          ∀ t, Resolves level groups chain t → ∃ left, t.leftOf? i = some left ∧
            IsItem chain i left.first left.links := by
  have hfile := isFile_parse text
  obtain ⟨places, hnodup, hmem, hmatches⟩ := exists_consPlaces hfile
  refine ⟨fun chain hchain => exists_isSpread hfile hchain, places, hnodup, hmem, ?_,
    fun chain i hplace level groups hlevel hgroups => ?_⟩
  · have hown (other : LintCode)
        (heq : other.checkNumber = LintCode.dropConsOfItemAndList.checkNumber) :
        other = .dropConsOfItemAndList := by
      cases other <;> first | rfl | cases heq
    have hcheck : (dropConsOfItemAndList, LintCode.dropConsOfItemAndList.checkNumber) ∈
        checks.zipIdx := by simp [checks, LintCode.checkNumber]
    rw [filter_lintTree hcheck hown]
    split
    · exact .nil
    obtain ⟨message, hfound⟩ := dropConsOfItemAndList_eq (parse text).tree fields
    rw [hmatches, List.filterMap_map] at hfound
    have hfindings {f : Finding} (hf : f ∈ dropConsOfItemAndList (.ofTree (parse text).tree fields)) :=
      exists_toDiagnostic? ((mem_findings_iff (isParsed_parse text) hcheck).mp hf).1
    rw [hfound] at hfindings ⊢
    rw [List.filterMap_filterMap]
    refine forall₂_filterMap ?_
    rintro ⟨chain, i⟩ hplace
    obtain ⟨hchain, list, hcons⟩ := (hmem chain i).mp hplace
    obtain ⟨start, run, f, hf, hcode, hitem, hrange⟩ := exists_consFinding hfile
      (isParsed_parse text) hchain hcons message
    obtain ⟨d, hd, hstands⟩ := hfindings (List.mem_filterMap.mpr ⟨(chain, i), hplace, hf⟩)
    refine ⟨d, ?_, by rw [hstands.code_eq, hcode], start, run, list, hitem, hcons, ?_⟩
    · rw [Function.comp_apply, hf, Option.bind_some, hd]
    · rw [hstands.range?_eq, hrange]
  · obtain ⟨hchain, list, hcons⟩ := (hmem chain i).mp hplace
    obtain ⟨first, rest, hspread⟩ := exists_isSpread hfile hchain hcons.1
    exact ⟨existsUnique_resolves hspread level groups, fun t ht =>
      ht.isItem hspread hcons hlevel hgroups⟩

end ElmLint.Lint
