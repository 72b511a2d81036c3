import ElmLint.Proofs.Syntax.Derivation
import ElmLint.Syntax.Grammar.Type

/-!
# Names and types follow their productions

A type inside a type comes behind an opening bracket or a comma, so fewer tokens are left for it;
this is why the bound on the nesting is never reached.
-/

namespace ElmLint.Syntax

open Grammar
open RegularExpression (star)
open Production (one oneOf atMostOne atLeastOne typeKinds)
open scoped Computability

variable {c c' : Cursor} {kind : Kind} {shape : RegularExpression Kind} {least bound floor : Nat}
  {type : Rule}

/-! ## Names -/

/-- A dot and the segment that touches it. -/
theorem Parses.segment (h : Parses least c shape c') (htouches : c'.touches .dot kind = true)
    (hkind : kind.isTrivia = false) (herror : kind ≠ .error) :
    Parses (least + 2) c shape c'.bump.bump := by
  obtain ⟨hdot, hsegment⟩ := Cursor.kind?_of_touches htouches hkind
  exact (h.bump hdot (by decide)).bump hsegment herror

theorem makes_upperCaseName (hkind : c.kind? = some .upperIdent) :
    Makes 1 c .upperCaseQid (upperCaseName c) := by
  rw [upperCaseName, if_pos (Cursor.sees_iff.mpr hkind)]
  refine makes_spelt fun c₀ hahead _ => ⟨?_, .of_writes rfl ?_⟩
  · have hfirst : Parses 1 c₀ 1 c₀.bump := .first hahead hkind (by decide)
    have hsegments : Parses 0 c₀.bump (star 1) (c₀.bump.repeatWhile (·.touches .dot .upperIdent)
        (fun c => c.bump.bump)) :=
      .repeatWhile_star fun c' _ hmore =>
        ((Parses.refl c').segment hmore rfl (by decide)).weaken (by decide)
    exact (hfirst.one_trans hsegments).mono kstar_one.le
  · refine (Writes.first hahead hkind).trans (.repeatWhile_star fun c' _ hmore => ?_)
    obtain ⟨hdot, hsegment⟩ := Cursor.kind?_of_touches hmore rfl
    have hlength := ((Parses.refl c').segment hmore rfl (by decide)).length_le
    exact ⟨(Writes.bump hdot).trans (.bump hsegment), by omega⟩

theorem parses_upperCaseName (hkind : c.kind? = some .upperIdent) :
    Parses 1 c (one .upperCaseQid) (upperCaseName c) := (makes_upperCaseName hkind).parses

theorem parses_upperCaseName_or_error (c : Cursor) :
    Parses 0 c (one .upperCaseQid) (upperCaseName c) := by
  by_cases h : c.sees .upperIdent = true
  · exact (parses_upperCaseName (Cursor.sees_iff.mp h)).weaken (Nat.zero_le _)
  · rw [upperCaseName, if_neg h]
    exact (Parses.refl c).error _

theorem writes_upperCaseName (c : Cursor) : Writes c (one .upperCaseQid) (upperCaseName c) := by
  by_cases h : c.sees .upperIdent = true
  · exact (makes_upperCaseName (Cursor.sees_iff.mp h)).writes rfl
  · rw [upperCaseName, if_neg h]
    exact (Writes.refl c).error _

/-! ## The parts of a type -/

theorem atTypeArgument_congr (h : c'.ahead = c.ahead) : atTypeArgument c' = atTypeArgument c := by
  simp only [atTypeArgument, Cursor.seesAny, Cursor.kind?_congr h]

theorem parses_recordBase (c : Cursor) :
    Parses 0 c (atMostOne .recordBaseIdentifier) (recordBase c) := by
  unfold recordBase
  split
  · rename_i hboth
    obtain ⟨hname, hpipe⟩ := Cursor.kind?_of_seesBoth hboth
    rw [Cursor.kind?_bump, ← Cursor.kind?_tokenNode .recordBaseIdentifier] at hpipe
    have hbase : Parses 1 c (one .recordBaseIdentifier)
        (Cursor.tokenNode .recordBaseIdentifier c) := .tokenNode hname (by decide) rfl rfl
    exact ((hbase.bump hpipe (by decide)).weaken (Nat.zero_le _)).mono le_add_self
  · exact (Parses.refl c).mono le_self_add

section Nested

variable (htype : ParsesBelow bound type Production.type)
include htype

theorem parses_parenthesizedType (hbound : c.rest.length ≤ bound) (hkind : c.kind? = some .lParen) :
    Parses 1 c Production.type (parenthesizedType type c) := by
  refine .fromHere fun c₀ hahead htoken hle => ?_
  have hopen : Parses 1 c₀ 1 c₀.bump := .first hahead hkind (by decide)
  have hbound₀ : c₀.rest.length ≤ bound := Nat.le_trans hle hbound
  dsimp only
  split
  · rename_i hclose
    exact (hopen.unit htoken (.first hahead hkind) hclose (by decide)).parses
  · refine ((hopen.one_trans (hopen.nested htype hbound₀)).tupleOrGroup htoken htype hbound₀ rfl
      (le_mul_of_one_le_right' one_le_kstar) (by decide) ⟨rfl, rfl⟩ ?_).parses
    exact ⟨fun _ => .of_free rfl, .of_free rfl⟩

theorem parsesBelow_fieldType : ParsesBelow bound (fieldType type) (one .fieldType) :=
  .labelled htype rfl (by decide) rfl

theorem parses_recordType (hbound : c.rest.length ≤ bound) (hkind : c.kind? = some .lBrace) :
    Parses 1 c (one .recordType) (recordType type c) := by
  refine .node rfl fun c₀ hahead hle => ?_
  have hopen : Parses 1 c₀ 1 c₀.bump := .first hahead hkind (by decide)
  have hbase := hopen.one_trans (parses_recordBase c₀.bump)
  exact hbase.items (parsesBelow_fieldType htype) (Nat.le_trans hle hbound) (by decide)

theorem parses_typeArgument (hbound : c.rest.length ≤ bound) :
    Parses (atTypeArgument c).toNat c Production.type (typeArgument type c) := by
  have hkind? : c.skipTrivia.kind? = c.kind? := Cursor.kind?_congr c.ahead_skipTrivia
  have hbound' : c.skipTrivia.rest.length ≤ bound :=
    Nat.le_trans (Emits.skipTrivia c).length_le hbound
  refine .skipTrivia ?_
  unfold typeArgument
  dsimp only
  split
  case h_1 hkind =>
    exact ((Parses.tokenNode hkind (by decide) rfl rfl).mem_oneOf (by decide)).weaken
      (Bool.toNat_le _)
  case h_2 hkind =>
    have hname : Parses 1 c.skipTrivia (one .typeRef) _ :=
      .node rfl fun c₀ hahead _ =>
        (parses_upperCaseName ((Cursor.kind?_congr hahead).trans hkind)).mono
          (le_mul_of_one_le_right' one_le_kstar)
    exact (hname.mem_oneOf (by decide)).weaken (Bool.toNat_le _)
  case h_3 hkind =>
    exact (parses_parenthesizedType htype hbound' hkind).weaken (Bool.toNat_le _)
  case h_4 hkind =>
    exact ((parses_recordType htype hbound' hkind).mem_oneOf (by decide)).weaken (Bool.toNat_le _)
  case h_5 hlower hupper hparen hbrace =>
    have hnot : atTypeArgument c = false := by
      rw [Bool.eq_false_iff]
      intro hat
      obtain ⟨kind, hmem, hkind⟩ := Cursor.kind?_of_seesAny hat
      rw [hkind?, hkind] at hlower hupper hparen hbrace
      simp only [List.mem_cons, List.not_mem_nil, or_false] at hmem
      obtain rfl | rfl | rfl | rfl := hmem <;> contradiction
    rw [hnot]
    exact (Parses.refl c.skipTrivia).error _

theorem parses_furtherTypeArgument (hbound : c.rest.length ≤ bound)
    (hmore : (atTypeArgument c && !c.atLayoutEnd floor) = true) :
    Parses 1 c Production.type (typeArgument type c) := by
  have hparses := parses_typeArgument htype hbound
  rwa [(Bool.and_eq_true_iff.mp hmore).1] at hparses

theorem parses_typeApplication (floor : Nat) (hbound : c.rest.length ≤ bound) :
    Parses (atTypeArgument c).toNat c Production.type (typeApplication floor type c) := by
  unfold typeApplication
  split
  · rename_i hname
    refine ((Parses.node rfl fun c₀ hahead hle => ?_).mem_oneOf (by decide)).weaken
      (Bool.toNat_le _)
    have happlied := parses_upperCaseName
      ((Cursor.kind?_congr hahead).trans (Cursor.sees_iff.mp hname))
    have := happlied.length_le
    exact happlied.trans (.repeatWhile_star fun c' hle' hmore =>
      parses_furtherTypeArgument htype (by omega) hmore)
  · exact parses_typeArgument htype hbound

theorem parses_arrows (floor rounds : Nat) (hrounds : c.rest.length < rounds)
    (hbound : c.rest.length ≤ bound) :
    Parses 0 c (star Production.type) (arrows floor type rounds c) := by
  induction rounds generalizing c with
  | zero => omega
  | succ rounds ih =>
    rw [arrows]
    split
    · rename_i harrow
      rw [atArrow, Bool.and_eq_true] at harrow
      have hbump : Parses 1 c 1 c.bump :=
        (Parses.refl c).bump (Cursor.sees_iff.mp harrow.1) (by decide)
      have hlt := hbump.length_le
      dsimp only
      split
      · have happlied := hbump.one_trans
          (parses_typeApplication htype floor (c := c.bump) (by omega))
        have hlt' := happlied.length_le
        exact ((happlied.trans (ih (by omega) (by omega))).weaken (Nat.zero_le _)).mono
          mul_kstar_le_kstar
      · exact (hbump.error _).weaken (Nat.zero_le _)
    · exact (Parses.refl c).mono one_le_kstar

theorem parses_typeOver (floor : Nat) (hbound : c.rest.length ≤ bound) :
    Parses 0 c Production.type (typeOver floor type c) := by
  unfold typeOver
  split
  · rename_i hat
    refine (Parses.fromHere fun c₀ hahead htoken hle => ?_).weaken (Nat.zero_le 1)
    have hfirst : Parses 1 c₀ Production.type (typeApplication floor type c₀) := by
      have happlication := parses_typeApplication htype floor (Nat.le_trans hle hbound)
      rwa [atTypeArgument_congr hahead, hat] at happlication
    have hle' := hfirst.length_le
    dsimp only
    split
    · have harrows (c' : Cursor) (hrest : c'.rest = (typeApplication floor type c₀).rest) :
          Parses 0 c' (star Production.type)
            (arrows floor type (c'.rest.length + 1) c') :=
        parses_arrows htype floor _ (Nat.lt_succ_self _) (by rw [hrest]; omega)
      exact (hfirst.wrap htoken harrows le_rfl Nat.one_pos rfl).mem_oneOf (by decide)
    · exact hfirst
  · exact (Parses.refl c).error _

end Nested

theorem parsesBelow_typeWithin (floor depth : Nat) :
    ParsesBelow depth (typeWithin floor depth) Production.type := by
  induction depth with
  | zero => exact parsesBelow_zero _ _
  | succ depth ih => exact fun c hc => parses_typeOver ih floor (Nat.le_of_lt_succ hc)

theorem parses_type (floor : Nat) (c : Cursor) :
    Parses 0 c Production.type (Grammar.type floor c) :=
  parsesBelow_typeWithin floor _ c (Nat.lt_succ_self _)

end ElmLint.Syntax
