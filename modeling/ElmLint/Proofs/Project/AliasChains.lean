import ElmLint.Project.RecordFields
import Mathlib.Data.List.TakeWhile
import Mathlib.Logic.Relation

/-!
# What record aliases stand for

An alias may name another alias, of its own file or of an imported one, and that one a further one,
before a record type is reached. `Reaches` is this search without a bound. A name stands for at most
one alias, so the search has one course and at most one end, and giving up after eight references
can lose an answer but never change it. A search that comes back to where it was has no end.
-/

namespace ElmLint

open Syntax (Tree Kind Site Import TypeAlias)

variable {w : Workspace} {d owner owner' : Document} {a a' : TypeAlias} {i : Import}
  {name next next' base module : String} {qualifier? : Option String} {type inner : Tree}
  {fields fields' : List String} {n n' depth : Nat}

-- ---------------------------------------------------------------------------
-- Names and their qualifiers
-- ---------------------------------------------------------------------------

/-- The last dot of a name, if there is one, ends its qualifier. -/
inductive Qualifies : Option String → String → String → Prop
  | bare {name : String} (hdot : '.' ∉ name.toList) : Qualifies none name name
  | dotted (qualifier : String) {base : String} (hdot : '.' ∉ base.toList) :
    Qualifies (some qualifier) base (qualifier ++ "." ++ base)

theorem splitQualified_of_qualifies (h : Qualifies qualifier? base name) :
    splitQualified name = (qualifier?, base) := by
  have hbase {s : String} (hdot : '.' ∉ s.toList) :
      ∀ c ∈ s.toList.reverse, (c != '.') = true := by
    intro c hc
    have hne : c ≠ '.' := fun h => hdot (h ▸ List.mem_reverse.mp hc)
    simpa using hne
  cases h with
  | bare hdot => rw [splitQualified, List.dropWhile_eq_nil_iff.mpr (hbase hdot)]
  | dotted qualifier hdot =>
    have hname : (qualifier ++ "." ++ base).toList.reverse =
        base.toList.reverse ++ '.' :: qualifier.toList.reverse := by simp
    rw [splitQualified, hname, List.dropWhile_append_of_pos (hbase hdot),
      List.takeWhile_append_of_pos (hbase hdot)]
    simp

theorem exists_qualifies (name : String) : ∃ qualifier? base, Qualifies qualifier? base name := by
  by_cases hdot : '.' ∈ name.toList.reverse
  · obtain ⟨back, front, hsplit, hback⟩ := List.eq_append_cons_of_mem hdot
    have hname : name =
        String.ofList front.reverse ++ "." ++ String.ofList back.reverse := by
      apply String.toList_injective
      simpa using congrArg List.reverse hsplit
    rw [hname]
    exact ⟨_, _, .dotted _ (by simpa using hback)⟩
  · exact ⟨none, name, .bare (by simpa using hdot)⟩

-- ---------------------------------------------------------------------------
-- The alias that a name stands for
-- ---------------------------------------------------------------------------

/-- The alias is the first one of the name in the file. -/
def Document.Declares (d : Document) (name : String) (a : TypeAlias) : Prop :=
  ∃ before after, d.file.aliases = before ++ a :: after ∧
    (∃ token, a.nameToken? = some token ∧ token.text = name) ∧
    ∀ other ∈ before, ∀ token, other.nameToken? = some token → token.text ≠ name

theorem Document.alias?_eq_some_iff : d.alias? name = some a ↔ d.Declares name a := by
  have hnamed (a : TypeAlias) : a.nameToken?.any (·.text == name) = true ↔
      ∃ token, a.nameToken? = some token ∧ token.text = name := by
    simp [Option.any_eq_true]
  have hother (a : TypeAlias) : (!a.nameToken?.any (·.text == name)) = true ↔
      ∀ token, a.nameToken? = some token → token.text ≠ name := by
    cases a.nameToken? <;> simp
  rw [Document.alias?, List.find?_eq_some_iff_append, Document.Declares]
  simp only [hnamed, hother]
  constructor
  · rintro ⟨hname, before, after, hsplit, hbefore⟩
    exact ⟨before, after, hsplit, hname, hbefore⟩
  · rintro ⟨before, after, hsplit, hname, hbefore⟩
    exact ⟨hname, before, after, hsplit, hbefore⟩

theorem Document.alias?_eq_none_iff : d.alias? name = none ↔ ∀ a, ¬ d.Declares name a := by
  simp [← Document.alias?_eq_some_iff, Option.eq_none_iff_forall_ne_some]

/-- The file of the module, as `d` sees it, belongs to the project and declares the alias. -/
def Supplies (w : Workspace) (d : Document) (module name : String) (owner : Document)
    (a : TypeAlias) : Prop :=
  ∃ uri, d.resolved.target? module = some (.file uri) ∧ w.document? uri = some owner ∧
    owner.Declares name a

/-- The import exposes everything, or something of the name. -/
def Exposes (i : Import) (name : String) : Prop :=
  ∃ list, i.exposing? = some list ∧
    (list.wildcard = true ∨ ∃ item ∈ list.items, item.name? = some name)

/-- The import makes the alias of `owner` visible in `d` without a qualifier. -/
def Brings (w : Workspace) (d : Document) (i : Import) (name : String) (owner : Document)
    (a : TypeAlias) : Prop :=
  Exposes i name ∧ ∃ module, i.module? = some module ∧ Supplies w d module name owner a

/-- The alias `a` of the file `owner` is what `name` stands for in the file `d`. -/
inductive StandsFor (w : Workspace) (d : Document) : String → Document → TypeAlias → Prop
  | own {name : String} {a : TypeAlias} (hname : Qualifies none name name)
    (hdeclares : d.Declares name a) : StandsFor w d name d a
  /-- Among the imports the first one counts that brings an alias of the name. -/
  | imported {name : String} {owner : Document} {a : TypeAlias} {before after : List Import}
    {i : Import} (hname : Qualifies none name name) (hown : ∀ a, ¬ d.Declares name a)
    (himports : d.file.imports = before ++ i :: after) (hbrings : Brings w d i name owner a)
    (hfirst : ∀ other ∈ before, ∀ owner a, ¬ Brings w d other name owner a) :
    StandsFor w d name owner a
  /-- A qualifier that is not known is a module name. -/
  | qualified {name qualifier base module : String} {owner : Document} {a : TypeAlias}
    (hname : Qualifies (some qualifier) base name)
    (hmodule : d.resolved.moduleOf? qualifier = some module ∨
      d.resolved.moduleOf? qualifier = none ∧ module = qualifier)
    (hsupplies : Supplies w d module base owner a) : StandsFor w d name owner a

namespace Workspace

/-- The alias in the file of a module. -/
def supply? (w : Workspace) (d : Document) (name module : String) :
    Option (Document × TypeAlias) := do
  let uri ← d.resolved.file? module
  let other ← w.document? uri
  let declaration ← other.alias? name
  return (other, declaration)

theorem supply?_eq_some_iff :
    w.supply? d name module = some (owner, a) ↔ Supplies w d module name owner a := by
  have hfile (uri : FileUri) : d.resolved.file? module = some uri ↔
      d.resolved.target? module = some (.file uri) := by
    unfold ResolvedModules.file?
    split <;> simp_all
  simp only [supply?, Supplies, Option.bind_eq_bind, Option.bind_eq_some_iff, Option.pure_def,
    Option.some.injEq, Prod.mk.injEq, hfile, Document.alias?_eq_some_iff]
  constructor
  · rintro ⟨uri, htarget, other, hother, declaration, hdeclares, rfl, rfl⟩
    exact ⟨uri, htarget, hother, hdeclares⟩
  · rintro ⟨uri, htarget, hother, hdeclares⟩
    exact ⟨uri, htarget, owner, hother, a, hdeclares, rfl, rfl⟩

/-- The alias that an import brings. -/
def bring? (w : Workspace) (d : Document) (name : String) (i : Import) :
    Option (Document × TypeAlias) :=
  if i.exposing?.any fun list => list.wildcard || list.items.any (·.name? == some name) then
    i.module?.bind (w.supply? d name)
  else none

theorem bring?_eq_some_iff :
    w.bring? d name i = some (owner, a) ↔ Brings w d i name owner a := by
  have hexposes : (i.exposing?.any fun list =>
      list.wildcard || list.items.any (·.name? == some name)) = true ↔ Exposes i name := by
    simp [Exposes, Option.any_eq_true]
  simp only [bring?, hexposes, Option.ite_none_right_eq_some, Option.bind_eq_some_iff,
    supply?_eq_some_iff, Brings]

theorem bring?_eq_none_iff :
    w.bring? d name i = none ↔ ∀ owner a, ¬ Brings w d i name owner a := by
  simp [← bring?_eq_some_iff, Option.eq_none_iff_forall_ne_some]

theorem findSome?_exposingModules (w : Workspace) (d : Document) (name : String) :
    (d.exposingModules name).findSome? (w.supply? d name) =
      d.file.imports.findSome? (w.bring? d name) := by
  rw [Document.exposingModules, List.filterMap_filter, ← List.head?_filterMap,
    List.filterMap_filterMap, List.head?_filterMap]
  congr 1
  funext i
  rw [bring?]
  split <;> rfl

theorem alias?_of_qualifies (h : Qualifies qualifier? base name) :
    w.alias? d name = ((if qualifier?.isNone then (d.alias? base).map (d, ·) else none).or
      ((d.candidateModules qualifier? base).findSome? (w.supply? d base))) := by
  rw [alias?, splitQualified_of_qualifies h]
  rfl

theorem alias?_eq_some_iff : w.alias? d name = some (owner, a) ↔ StandsFor w d name owner a := by
  constructor
  case mp =>
    intro h
    obtain ⟨qualifier?, base, hname⟩ := exists_qualifies name
    rw [alias?_of_qualifies hname, Option.or_eq_some_iff] at h
    cases hname with
    | bare hdot =>
      obtain hown | ⟨hown, hfound⟩ := h
      · obtain ⟨a, ha, heq⟩ := Option.map_eq_some_iff.mp hown
        cases heq
        exact .own (.bare hdot) (Document.alias?_eq_some_iff.mp ha)
      · rw [Document.candidateModules, findSome?_exposingModules,
          List.findSome?_eq_some_iff] at hfound
        obtain ⟨before, i, after, himports, hbrings, hbefore⟩ := hfound
        exact .imported (.bare hdot) (Document.alias?_eq_none_iff.mp (Option.map_eq_none_iff.mp hown))
          himports (bring?_eq_some_iff.mp hbrings)
          fun other hother => bring?_eq_none_iff.mp (hbefore other hother)
    | dotted qualifier hdot =>
      obtain ⟨⟨⟩⟩ | ⟨-, hfound⟩ := h
      refine .qualified (.dotted qualifier hdot) ?_ (supply?_eq_some_iff.mp
        (by simpa [Document.candidateModules] using hfound))
      cases d.resolved.moduleOf? qualifier <;> simp
  case mpr =>
    intro h
    cases h with
    | own hname hdeclares =>
      rw [alias?_of_qualifies hname, Document.alias?_eq_some_iff.mpr hdeclares]
      rfl
    | imported hname hown himports hbrings hfirst =>
      rw [alias?_of_qualifies hname, Document.alias?_eq_none_iff.mpr hown]
      change (d.exposingModules name).findSome? _ = _
      rw [findSome?_exposingModules, List.findSome?_eq_some_iff]
      exact ⟨_, _, _, himports, bring?_eq_some_iff.mpr hbrings,
        fun other hother => bring?_eq_none_iff.mpr (hfirst other hother)⟩
    | @qualified qualifier _ module _ _ hname hmodule hsupplies =>
      have hmodule : (d.resolved.moduleOf? qualifier).getD qualifier = module := by
        obtain h | ⟨h, rfl⟩ := hmodule <;> rw [h] <;> rfl
      rw [alias?_of_qualifies hname]
      simp [Document.candidateModules, hmodule, supply?_eq_some_iff.mpr hsupplies]

end Workspace

theorem StandsFor.unique (h : StandsFor w d name owner a) (h' : StandsFor w d name owner' a') :
    owner = owner' ∧ a = a' := by
  have heq := (Workspace.alias?_eq_some_iff.mpr h).symm.trans (Workspace.alias?_eq_some_iff.mpr h')
  exact Prod.mk.inj (Option.some.inj heq)

-- ---------------------------------------------------------------------------
-- Types through parentheses
-- ---------------------------------------------------------------------------

/-- The second type is the first one without the parentheses around it. -/
inductive Unwraps : Tree → Tree → Prop
  | bare (type : Tree) (hbare : ∀ children, type = .node .typeExpression children →
    ∀ inner, children.filter (·.isNode) ≠ [inner]) : Unwraps type type
  | wrapped {children : List Tree} {inner type : Tree}
    (hinner : children.filter (·.isNode) = [inner]) (h : Unwraps inner type) :
    Unwraps (.node .typeExpression children) type

theorem innerTypes_eq_map (trees : List Tree) :
    innerTypes trees = (trees.filter (·.isNode)).map innerType := by
  induction trees with
  | nil => rfl
  | cons tree trees ih => cases hnode : tree.isNode <;> simp [innerTypes, hnode, ih]

theorem innerType_of_unwraps (h : Unwraps type inner) : innerType type = inner := by
  induction h with
  | bare type hbare =>
    cases type with
    | token kind text => rfl
    | node kind children =>
      rw [innerType]
      split
      case isFalse => rfl
      case isTrue hkind =>
        subst hkind
        rw [innerTypes_eq_map]
        split
        case h_1 inner heq =>
          obtain ⟨inner', hinner, -⟩ := List.map_eq_singleton_iff.mp heq
          exact absurd hinner (hbare children rfl inner')
        case h_2 => rfl
  | wrapped hinner h ih => rw [innerType, if_pos rfl, innerTypes_eq_map, hinner]; exact ih

/-- Parentheses end somewhere, since every type is larger than what is in its parentheses. -/
theorem exists_unwraps (type : Tree) : ∃ inner, Unwraps type inner := by
  by_cases hwrapped : ∃ children inner, type = .node .typeExpression children ∧
      children.filter (·.isNode) = [inner]
  · obtain ⟨children, inner, rfl, hinner⟩ := hwrapped
    have hmem : inner ∈ children :=
      (List.mem_filter.mp (hinner ▸ List.mem_singleton_self inner)).1
    obtain ⟨type, htype⟩ := exists_unwraps inner
    exact ⟨type, .wrapped hinner htype⟩
  · exact ⟨type, .bare type fun children htype inner hinner =>
      hwrapped ⟨children, inner, htype, hinner⟩⟩
termination_by type
decreasing_by
  subst_vars
  have := List.sizeOf_lt_of_mem hmem
  simp
  omega

/-- The alias is a record type with these fields. -/
def IsRecord (a : TypeAlias) (fields : List String) : Prop :=
  ∃ type record, a.aliased? = some type ∧ Unwraps type.tree record ∧
    record.kind = .recordType ∧ fieldNames record = fields

/-- The alias is a reference to a type of the name. -/
def RefersTo (a : TypeAlias) (name : String) : Prop :=
  ∃ type reference written, a.aliased? = some type ∧ Unwraps type.tree reference ∧
    reference.kind = .typeRef ∧
    reference.children.find? (fun t => t.isNode && t.kind == .upperCaseQid) = some written ∧
    written.dottedName = name

theorem isRecord_iff :
    a.aliased?.map (typeForm ·.tree) = some (.record fields) ↔ IsRecord a fields := by
  constructor
  case mp =>
    intro h
    obtain ⟨type, htype, hform⟩ := Option.map_eq_some_iff.mp h
    obtain ⟨inner, hinner⟩ := exists_unwraps type.tree
    simp only [typeForm, innerType_of_unwraps hinner] at hform
    split at hform
    case h_1 hkind => exact ⟨type, inner, htype, hinner, hkind, by simpa using hform⟩
    case h_2 => split at hform <;> cases hform
    case h_3 => cases hform
  case mpr =>
    rintro ⟨type, record, htype, hrecord, hkind, rfl⟩
    simp [htype, typeForm, innerType_of_unwraps hrecord, hkind]

theorem refersTo_iff :
    a.aliased?.map (typeForm ·.tree) = some (.reference name) ↔ RefersTo a name := by
  constructor
  case mp =>
    intro h
    obtain ⟨type, htype, hform⟩ := Option.map_eq_some_iff.mp h
    obtain ⟨inner, hinner⟩ := exists_unwraps type.tree
    simp only [typeForm, innerType_of_unwraps hinner] at hform
    split at hform
    case h_1 => cases hform
    case h_2 hkind =>
      split at hform
      case h_1 written hwritten =>
        exact ⟨type, inner, written, htype, hinner, hkind, hwritten, by simpa using hform⟩
      case h_2 => cases hform
    case h_3 => cases hform
  case mpr =>
    rintro ⟨type, reference, written, htype, hreference, hkind, hwritten, rfl⟩
    simp [htype, typeForm, innerType_of_unwraps hreference, hkind, hwritten]

-- ---------------------------------------------------------------------------
-- The search without a bound
-- ---------------------------------------------------------------------------

/-- From the name, as the file has it, `n` type references lead to a record type with the fields. -/
inductive Reaches (w : Workspace) : Document → String → Nat → List String → Prop
  | record {d owner : Document} {name : String} {a : TypeAlias} {fields : List String}
    (halias : StandsFor w d name owner a) (hrecord : IsRecord a fields) : Reaches w d name 0 fields
  | reference {d owner : Document} {name next : String} {a : TypeAlias} {n : Nat}
    {fields : List String} (halias : StandsFor w d name owner a) (hnext : RefersTo a next)
    (h : Reaches w owner next n fields) : Reaches w d name (n + 1) fields

/-- One type reference of the search: from a name in a file to a name in the file of its alias. -/
def LeadsTo (w : Workspace) (here there : Document × String) : Prop :=
  ∃ a, StandsFor w here.1 here.2 there.1 a ∧ RefersTo a there.2

/-- The search comes to a name, as some file has it, to which it comes back. -/
def IsCyclic (w : Workspace) (d : Document) (name : String) : Prop :=
  ∃ there, Relation.ReflTransGen (LeadsTo w) (d, name) there ∧
    Relation.TransGen (LeadsTo w) there there

/-- With a bound on the references, what is found is what the search without one comes to. -/
theorem recordFieldsWithin?_eq_some_iff :
    w.recordFieldsWithin? depth d name = some fields ↔ ∃ n < depth, Reaches w d name n fields := by
  induction depth generalizing d name with
  | zero => simp [Workspace.recordFieldsWithin?]
  | succ depth ih =>
    rw [Workspace.recordFieldsWithin?]
    constructor
    case mp =>
      intro h
      split at h
      case h_1 => cases h
      case h_2 owner a halias =>
        rw [Workspace.alias?_eq_some_iff] at halias
        split at h
        case h_1 hrecord =>
          cases h
          exact ⟨0, by omega, .record halias (isRecord_iff.mp hrecord)⟩
        case h_2 next hnext =>
          obtain ⟨n, hn, hreaches⟩ := ih.mp h
          exact ⟨n + 1, by omega, .reference halias (refersTo_iff.mp hnext) hreaches⟩
        case h_3 => cases h
    case mpr =>
      rintro ⟨n, hn, hreaches⟩
      cases hreaches with
      | record halias hrecord =>
        simp only [Workspace.alias?_eq_some_iff.mpr halias, isRecord_iff.mpr hrecord]
      | reference halias hnext h =>
        simp only [Workspace.alias?_eq_some_iff.mpr halias, refersTo_iff.mpr hnext]
        exact ih.mpr ⟨_, by omega, h⟩

theorem IsRecord.unique (h : IsRecord a fields) (h' : IsRecord a fields') : fields = fields' := by
  have heq := (isRecord_iff.mpr h).symm.trans (isRecord_iff.mpr h')
  exact TypeForm.record.inj (Option.some.inj heq)

theorem RefersTo.unique (h : RefersTo a next) (h' : RefersTo a next') : next = next' := by
  have heq := (refersTo_iff.mpr h).symm.trans (refersTo_iff.mpr h')
  exact TypeForm.reference.inj (Option.some.inj heq)

theorem IsRecord.not_refersTo (h : IsRecord a fields) (h' : RefersTo a next) : False := by
  have heq := (isRecord_iff.mpr h).symm.trans (refersTo_iff.mpr h')
  cases Option.some.inj heq

/-- A search goes on from where a reference leads. -/
theorem Reaches.of_leadsTo {here there : Document × String} (h : Reaches w here.1 here.2 n fields)
    (hleads : LeadsTo w here there) : ∃ n' < n, Reaches w there.1 there.2 n' fields := by
  obtain ⟨a, halias, hnext⟩ := hleads
  cases h with
  | record halias' hrecord =>
    obtain ⟨-, rfl⟩ := halias.unique halias'
    exact (hrecord.not_refersTo hnext).elim
  | reference halias' hnext' h =>
    obtain ⟨howner, rfl⟩ := halias.unique halias'
    rw [howner, hnext.unique hnext']
    exact ⟨_, Nat.lt_succ_self _, h⟩

theorem Reaches.of_reflTransGen {here there : Document × String}
    (h : Reaches w here.1 here.2 n fields) (hpath : Relation.ReflTransGen (LeadsTo w) here there) :
    ∃ n' ≤ n, Reaches w there.1 there.2 n' fields := by
  induction hpath with
  | refl => exact ⟨n, le_rfl, h⟩
  | tail _ hleads ih =>
    obtain ⟨n', hn', h'⟩ := ih
    obtain ⟨n'', hn'', h''⟩ := h'.of_leadsTo hleads
    exact ⟨n'', by omega, h''⟩

theorem Reaches.unique (h : Reaches w d name n fields) (h' : Reaches w d name n' fields') :
    n = n' ∧ fields = fields' := by
  induction h generalizing n' with
  | record halias hrecord =>
    cases h' with
    | record halias' hrecord' =>
      obtain ⟨-, rfl⟩ := halias.unique halias'
      exact ⟨rfl, hrecord.unique hrecord'⟩
    | reference halias' hnext' h' =>
      obtain ⟨-, rfl⟩ := halias.unique halias'
      exact (hrecord.not_refersTo hnext').elim
  | reference halias hnext h ih =>
    cases h' with
    | record halias' hrecord' =>
      obtain ⟨-, rfl⟩ := halias.unique halias'
      exact (hrecord'.not_refersTo hnext).elim
    | reference halias' hnext' h' =>
      obtain ⟨rfl, rfl⟩ := halias.unique halias'
      obtain rfl := hnext.unique hnext'
      obtain ⟨rfl, rfl⟩ := ih h'
      exact ⟨rfl, rfl⟩

/-- A search that comes back to where it was has no end: the end would be nearer the second time. -/
theorem IsCyclic.not_reaches (hcyclic : IsCyclic w d name) : ¬ Reaches w d name n fields := by
  intro h
  obtain ⟨there, hpath, hback⟩ := hcyclic
  obtain ⟨n₁, -, hthere⟩ := h.of_reflTransGen hpath
  obtain ⟨next, hleads, hpath'⟩ := Relation.TransGen.head'_iff.mp hback
  obtain ⟨n₂, hn₂, hnext⟩ := hthere.of_leadsTo hleads
  obtain ⟨n₃, hn₃, hagain⟩ := hnext.of_reflTransGen hpath'
  have heq := (hthere.unique hagain).1
  omega

/-- The fields that are told for a name are those of the record type that at most eight references
lead to. A search of any length would find no others, and one that runs in a circle finds none. -/
theorem recordFields?_isExact (w : Workspace) (d : Document) (name : String) :
    (∀ fields, w.recordFields? d name = some fields ↔ ∃ n ≤ 8, Reaches w d name n fields) ∧
    (∀ fields, w.recordFields? d name = some fields →
      ∀ n fields', Reaches w d name n fields' → fields' = fields) ∧
    (IsCyclic w d name → w.recordFields? d name = none) := by
  have hiff (fields : List String) :
      w.recordFields? d name = some fields ↔ ∃ n ≤ 8, Reaches w d name n fields := by
    simp only [Workspace.recordFields?, recordFieldsWithin?_eq_some_iff, maxAliasDepth,
      Nat.lt_succ_iff]
  refine ⟨hiff, fun fields h n fields' hreaches => ?_, fun hcyclic => ?_⟩
  · obtain ⟨n', -, hfound⟩ := (hiff fields).mp h
    exact (hreaches.unique hfound).2
  · refine Option.eq_none_iff_forall_ne_some.mpr fun fields h => ?_
    obtain ⟨n, -, hreaches⟩ := (hiff fields).mp h
    exact hcyclic.not_reaches hreaches

end ElmLint
