import ElmLint.Proofs.Fix.ImportClauses
import ElmLint.Proofs.Lint.Bindings

/-!
# Taking a variable out of its pattern

What the fix does with a variable depends on the node around it: a field leaves its record or takes
the record with it, a name behind an `as` leaves with the keyword, and in any other place an
underscore remains. The name in front of an `as` is the exception: its fix changes nothing, and with
a comment in front of the `as` there is none.
-/

namespace ElmLint.QuickFix

open Syntax Lint

variable {text : String} {site parent token keyword inner : Site} {range : ByteRange}
  {outer outerBack before after : List Site} {title : String} {diagnostic : Diagnostic}

-- ---------------------------------------------------------------------------
-- Finding the variable
-- ---------------------------------------------------------------------------

section Place

variable (hok : (parse text).ok = true) (hsite : site ∈ (Site.root (parse text).tree).nodes)
  (hkind : site.kind = .lowerPattern)
include hok hsite hkind

/-- A variable is a name of one token. -/
theorem exists_name : ∃ name, site.parts = [name] ∧ site.tokens = [name] ∧
    name.kind = .lowerIdent := by
  have hword : solidKinds site.parts = [.lowerIdent] := by
    rw [solidKinds_parts]
    exact spelt_of_mem_nodes hok hsite (by rw [hkind]; rfl)
  obtain ⟨name, hparts, hname⟩ := exists_only_part hok hsite (by rw [hkind]; decide) hword
  refine ⟨name, hparts, ?_, hname⟩
  rw [Site.tokens_node (List.mem_filter.mp hsite).2, hparts, List.flatMap_singleton]
  exact tokens_of_part hok hsite (by simp [hparts]) (by rw [hname]; rfl)

end Place

-- ---------------------------------------------------------------------------
-- Rewriting
-- ---------------------------------------------------------------------------

section Rewritten

variable (hok : (parse text).ok = true) (hsite : site ∈ (Site.root (parse text).tree).nodes)
  (htokens : (Site.root (parse text).tree).tokens = outer ++ (site.tokens ++ outerBack))
include hok hsite htokens

end Rewritten

-- ---------------------------------------------------------------------------
-- Patterns with a name
-- ---------------------------------------------------------------------------

section Named

variable {name : Site} {gap gap' : List Site}

variable (hok : (parse text).ok = true) (hparent : parent ∈ (Site.root (parse text).tree).nodes)
include hok hparent

end Named

-- ---------------------------------------------------------------------------
-- In front of the keyword
-- ---------------------------------------------------------------------------

section Front

variable {name : Site} {gap gap' : List Site}

end Front

-- ---------------------------------------------------------------------------
-- Records
-- ---------------------------------------------------------------------------

section Record

variable (hok : (parse text).ok = true) (hparent : parent ∈ (Site.root (parse text).tree).nodes)
  (hrecord : parent.kind = .recordPattern) (hparts : parent.parts = before ++ site :: after)
  (hkind : site.kind = .lowerPattern)
include hok hparent hrecord hparts hkind

end Record

-- ---------------------------------------------------------------------------
-- What is removed
-- ---------------------------------------------------------------------------

section Removal

variable {name : Site} (hok : (parse text).ok = true)
  (hsite : site ∈ (Site.root (parse text).tree).nodes) (hkind : site.kind = .lowerPattern)
  (hname : site.parts = [name]) (hnameKind : name.kind = .lowerIdent)
  (hparent : parent ∈ (Site.root (parse text).tree).nodes) (hchild : site ∈ parent.children)
include hok hsite hkind hname hnameKind hparent hchild

end Removal

-- ---------------------------------------------------------------------------
-- Fixes
-- ---------------------------------------------------------------------------

section Reported

variable {fields : String → Option (List String)} {uri : FileUri} {writable : Bool}
  {disabled : List LintCode} {name : Site} {change : Change} {edited : String}

end Reported

-- The name in front of an `as` stays.
example :
    let text := "f (x as y) = y\n"
    let d := Document.ofText default text true
    ((offers d (d.lint (fun _ => none) [])).flatMap (·.edits)).map ( TextEdit.apply? · text) =
      [some text] := by
  decide +kernel

end ElmLint.QuickFix
