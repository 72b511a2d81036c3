import ElmLint.Proofs.Syntax.Arrival

/-!
# What the first column starts

A token in the first column begins an item of the file, unless the node that is being read reaches
for it. The lemmas go through the grammar rule by rule. Where a rule looks at the floor before it
takes a token, nothing is taken from the first column.
-/

namespace ElmLint.Syntax

open Grammar
open Kind (typeFirsts argumentFirsts patternFirsts atomFirsts)

variable {c c' c'' : Cursor} {firsts : List Kind} {kind : Kind} {floor column : Nat}

/-! ## Names -/

theorem readsOn_upperSegments (kind : Kind) (c : Cursor) :
    ReadsOn kind c (c.repeatWhile (·.touches .dot .upperIdent) fun c => c.bump.bump) := by
  have hgo (rounds : Nat) (c : Cursor) : ReadsOn kind c (Cursor.repeatWhile.go
      (·.touches .dot .upperIdent) (fun c => c.bump.bump) rounds c) := by
    induction rounds generalizing c with
    | zero => exact fun huncut => absurd huncut Bool.noConfusion
    | succ rounds ih =>
      rw [Cursor.repeatWhile.go]
      split
      · exact .segment ‹_› (.inr rfl) (ih _)
      · exact .refl kind c
  exact hgo _ c

theorem forms_upperCaseName (hkind : c.kind? = some .upperIdent) :
    Forms [.upperIdent] c (upperCaseName c) := by
  rw [upperCaseName, if_pos (Cursor.sees_iff.mpr hkind)]
  exact .node fun c₀ hahead =>
    .word (by decide) ((Cursor.kind?_congr hahead).trans hkind) (readsOn_upperSegments _ _)

theorem reads_upperCaseName (kind : Kind) (c : Cursor) :
    Reads [.upperIdent] kind c (upperCaseName c) := by
  by_cases h : c.sees .upperIdent = true
  · exact (forms_upperCaseName (Cursor.sees_iff.mp h)).reads
  · rw [upperCaseName, if_neg h]
    exact (Reads.refl _ kind c).error _

theorem readsOn_valueSegments (kind : Kind) (rounds : Nat) (c : Cursor) :
    ReadsOn kind c (valueSegments rounds c) := by
  induction rounds generalizing c with
  | zero => exact fun huncut => absurd huncut Bool.noConfusion
  | succ rounds ih =>
    rw [valueSegments]
    split
    · exact .segment ‹_› (.inr rfl) (ih _)
    split
    · exact .segment ‹_› (.inl rfl) (.refl kind _)
    · exact .refl kind c

theorem forms_qualifiedValue (hkind : c.kind? = some .upperIdent) :
    Forms [.upperIdent] c (qualifiedValue c) := by
  unfold qualifiedValue
  split
  · refine .node fun c₀ hahead => (Forms.node fun c₁ hahead' => ?_).reads
    exact .word (by decide) ((Cursor.kind?_congr (hahead'.trans hahead)).trans hkind)
      (readsOn_valueSegments _ _ _)
  · exact .node fun c₀ hahead =>
      (forms_upperCaseName ((Cursor.kind?_congr hahead).trans hkind)).reads

/-! ## Types -/

theorem reads_recordBase (hover : [.lowerIdent, .pipe] ⊆ kind.overreach) (c : Cursor) :
    Reads kind.overreach kind c (recordBase c) := by
  unfold recordBase
  split
  · rename_i hboth
    obtain ⟨hname, hpipe⟩ := Cursor.kind?_of_seesBoth hboth
    rw [Cursor.kind?_bump, ← Cursor.kind?_tokenNode .recordBaseIdentifier] at hpipe
    have hbase : Reads [.lowerIdent] kind c (Cursor.tokenNode .recordBaseIdentifier c) :=
      (Forms.tokenNode (by simp [hname])).reads
    exact (hbase.mono (by simpa using hover (.head _))).andThen (.bump (by simp [hpipe])) hover
  · exact .refl _ kind c

section Nested

variable {type : Rule} (htype : ∀ kind c, Reads typeFirsts kind c (type c))
include htype

theorem reads_parenthesizedType (hkind : c.kind? = some .lParen) :
    Reads [.lParen] kind c (parenthesizedType type c) := by
  refine .fromHere fun c₀ hahead => ?_
  have hkind₀ := (Cursor.kind?_congr hahead).trans hkind
  dsimp only
  split
  · exact .unit hkind₀ ‹_›
  · exact .tupleOrGroup hkind₀ htype (by decide) (by decide)

theorem reads_fieldType (kind : Kind) (c : Cursor) :
    Reads [.lowerIdent] kind c (fieldType type c) := .labelled (htype _) (by decide) c

theorem forms_recordType (hkind : c.kind? = some .lBrace) :
    Forms [.lBrace] c (recordType type c) := by
  refine .first hkind fun c₀ _ => ?_
  exact (reads_recordBase (by decide) c₀.bump).andThen
    (.items (reads_fieldType htype _) (by decide)) (List.Subset.refl _)

theorem reads_typeArgument (kind : Kind) (c : Cursor) :
    Reads typeFirsts kind c (typeArgument type c) := by
  refine .skipTrivia ?_
  unfold typeArgument
  dsimp only
  split
  case h_1 hkind => exact (Forms.tokenNode (by simp [hkind, typeFirsts])).reads
  case h_2 hkind =>
    exact (Forms.node fun c₀ _ => (reads_upperCaseName _ c₀).mono (by decide)).reads
  case h_3 hkind => exact (reads_parenthesizedType htype hkind).mono (by decide)
  case h_4 hkind => exact (forms_recordType htype hkind).reads.mono (by decide)
  case h_5 => exact (Reads.refl _ kind _).error _

theorem reads_typeApplication (floor : Nat) (kind : Kind) (c : Cursor) :
    Reads typeFirsts kind c (typeApplication floor type c) := by
  unfold typeApplication
  split
  · refine (Forms.node fun c₀ _ => ?_).reads
    refine ((reads_upperCaseName _ c₀).mono (by decide)).further ?_
    refine .repeatWhile (List.nil_subset _) fun c' hmore => ?_
    simp only [Bool.and_eq_true, Bool.not_eq_true'] at hmore
    exact (reads_typeArgument htype _ c').free hmore.2
  · exact reads_typeArgument htype kind c

theorem reads_arrows (hover : typeFirsts ⊆ kind.overreach) (floor rounds : Nat) (c : Cursor) :
    Reads [] kind c (arrows floor type rounds c) := by
  induction rounds generalizing c with
  | zero => exact .cutOff _ kind c
  | succ rounds ih =>
    rw [arrows]
    split
    · rename_i harrow
      simp only [atArrow, Bool.and_eq_true, Bool.not_eq_true'] at harrow
      refine (Reads.first (Cursor.sees_iff.mp harrow.1) ?_).free harrow.2
      dsimp only
      split
      · exact ((reads_typeApplication htype floor kind _).mono hover).further (ih _)
      · exact (Reads.refl _ kind _).error _
    · exact .refl _ kind c

theorem reads_typeOver (floor : Nat) (kind : Kind) (c : Cursor) :
    Reads typeFirsts kind c (typeOver floor type c) := by
  unfold typeOver
  split
  · refine .fromHere fun c₀ _ => ?_
    dsimp only
    split
    · exact (reads_typeApplication htype floor _ c₀).wrap
        (fun c₁ _ => reads_arrows htype (by decide) floor _ c₁) (List.nil_subset _)
        (List.nil_subset _)
    · exact reads_typeApplication htype floor kind c₀
  · exact (Reads.refl _ kind c).error _

end Nested

theorem reads_type (floor : Nat) (kind : Kind) (c : Cursor) :
    Reads typeFirsts kind c (Grammar.type floor c) := by
  have hwithin (depth : Nat) (kind : Kind) (c : Cursor) :
      Reads typeFirsts kind c (typeWithin floor depth c) := by
    induction depth generalizing kind c with
    | zero => exact .cutOff _ kind c
    | succ depth ih => exact reads_typeOver ih floor kind c
  exact hwithin _ kind c

/-! ## Patterns -/

theorem reads_patternFields (rounds : Nat) (c : Cursor) :
    Reads (Kind.overreach .recordPattern) .recordPattern c (patternFields rounds c) := by
  induction rounds generalizing c with
  | zero => exact .cutOff _ _ c
  | succ rounds ih =>
    rw [patternFields]
    split
    · rename_i hname
      have hfield : Reads (Kind.overreach .recordPattern) .recordPattern c
          (Cursor.tokenNode .lowerPattern c) :=
        (Forms.tokenNode (by simp [Cursor.sees_iff.mp hname, Kind.overreach])).reads
      dsimp only
      split
      · rename_i hcomma
        exact hfield.andThen (.first (Cursor.sees_iff.mp hcomma) (ih _)) (by decide)
      · exact hfield
    · exact (Reads.refl _ _ c).error _

theorem forms_recordPattern (hkind : c.kind? = some .lBrace) :
    Forms [.lBrace] c (recordPattern c) := by
  refine .first hkind fun c₀ _ => ?_
  exact (reads_patternFields _ c₀.bump).andThen (.expect _) (by decide)

theorem forms_negativeNumber (hminus : c.seesOperator "-" = true) :
    Forms [.operatorIdent] c (Cursor.node .literalPattern (fun c => c.bump.expect .number) c) := by
  have hkind := Cursor.kind?_of_seesOperator hminus
  exact .first hkind fun _ _ => (Reads.expect _).mono (by decide)

section Nested

variable {pattern cons : Rule} (hpattern : ∀ kind c, Reads patternFirsts kind c (pattern c))
include hpattern

theorem reads_parenthesizedPattern (hkind : c.kind? = some .lParen) :
    Reads [.lParen] kind c (parenthesizedPattern pattern c) := by
  refine .fromHere fun c₀ hahead => ?_
  have hkind₀ := (Cursor.kind?_congr hahead).trans hkind
  dsimp only
  split
  · exact .unit hkind₀ ‹_›
  · exact .tupleOrGroup hkind₀ hpattern (by decide) (by decide)

theorem forms_listPattern (hkind : c.kind? = some .lBracket) :
    Forms [.lBracket] c (listPattern pattern c) :=
  .first hkind fun _ _ =>
    (.items (hpattern _) (by decide))

theorem reads_atomicPattern (kind : Kind) (c : Cursor) :
    Reads argumentFirsts kind c (atomicPattern pattern c) := by
  refine .skipTrivia ?_
  unfold atomicPattern
  dsimp only
  split
  case h_1 hkind | h_2 hkind | h_4 hkind | h_5 hkind | h_6 hkind =>
    exact (Forms.tokenNode (by simp [hkind, argumentFirsts])).reads
  case h_3 hkind =>
    exact (Forms.node fun c₀ _ => (reads_upperCaseName _ c₀).mono (by decide)).reads
  case h_7 hkind => exact (reads_parenthesizedPattern hpattern hkind).mono (by decide)
  case h_8 hkind => exact (forms_listPattern hpattern hkind).reads.mono (by decide)
  case h_9 hkind => exact (forms_recordPattern hkind).reads.mono (by decide)
  case h_10 =>
    split
    · exact (forms_negativeNumber ‹_›).reads.mono (by decide)
    · exact (Reads.refl _ kind _).error _

theorem reads_constructorPattern (floor : Nat) (kind : Kind) (c : Cursor) :
    Reads argumentFirsts kind c (constructorPattern floor pattern c) := by
  unfold constructorPattern
  split
  · refine (Forms.node fun c₀ _ => ?_).reads
    refine ((reads_upperCaseName _ c₀).mono (by decide)).further ?_
    refine .repeatWhile (List.nil_subset _) fun c' hmore => ?_
    simp only [atPatternArgument, Bool.and_eq_true, Bool.not_eq_true'] at hmore
    exact (reads_atomicPattern hpattern _ c').free hmore.2
  · exact reads_atomicPattern hpattern kind c

theorem reads_consOver (hcons : ∀ kind c, Reads argumentFirsts kind c (cons c)) (floor : Nat)
    (kind : Kind) (c : Cursor) : Reads argumentFirsts kind c (consOver floor pattern cons c) := by
  refine .fromHere fun c₀ _ => ?_
  dsimp only
  split
  · rename_i hmore
    simp only [Bool.and_eq_true, Bool.not_eq_true'] at hmore
    refine (reads_constructorPattern hpattern floor _ c₀).wrap (fun c₁ hrest => ?_)
      (List.nil_subset _) (List.nil_subset _)
    have hahead := Cursor.ahead_congr hrest
    have hkind := (Cursor.kind?_congr hahead).trans (Cursor.kind?_of_seesOperator hmore.1)
    refine (Reads.first hkind ?_).free ((atLayoutEnd_congr hahead).trans hmore.2)
    split
    · exact (hcons _ _).mono (by decide)
    · exact (Reads.refl _ _ _).error _
  · exact reads_constructorPattern hpattern floor kind c₀

theorem reads_patternOver (hcons : ∀ kind c, Reads argumentFirsts kind c (cons c)) (floor : Nat)
    (kind : Kind) (c : Cursor) : Reads patternFirsts kind c (patternOver floor pattern cons c) := by
  refine .fromHere fun c₀ _ => ?_
  have hfirst (kind : Kind) : Reads patternFirsts kind c₀ (consOver floor pattern cons c₀) :=
    (reads_consOver hpattern hcons floor kind c₀).mono (by decide)
  dsimp only
  split
  · rename_i has
    have hname (c₁ : Cursor) (hrest : c₁.rest = (consOver floor pattern cons c₀).rest) :
        Reads [.asKw] .asPattern c₁
          (if c₁.bump.sees .lowerIdent then Cursor.tokenNode .lowerPattern c₁.bump
          else c₁.bump.error .expectedNameAfterAs) := by
      have hkind := (Cursor.kind?_congr (Cursor.ahead_congr hrest)).trans (Cursor.sees_iff.mp has)
      refine .first hkind ?_
      split
      · rename_i hlower
        exact (Forms.tokenNode (by simp [Cursor.sees_iff.mp hlower, Kind.overreach])).reads
      · exact (Reads.refl _ _ _).error _
    exact (hfirst _).wrap hname (by decide) (by decide)
  · exact hfirst kind

end Nested

theorem reads_pattern (floor : Nat) (kind : Kind) (c : Cursor) :
    Reads patternFirsts kind c (Grammar.pattern floor c) := by
  have hwithin (depth : Nat) :
      (∀ kind c, Reads patternFirsts kind c (patternWithin floor depth c)) ∧
        ∀ kind c, Reads argumentFirsts kind c (consWithin floor depth c) := by
    induction depth with
    | zero => exact ⟨fun kind c => .cutOff _ kind c, fun kind c => .cutOff _ kind c⟩
    | succ depth ih => exact ⟨reads_patternOver ih.1 ih.2 floor, reads_consOver ih.1 ih.2 floor⟩
  exact (hwithin _).1 kind c

theorem reads_parameter (floor : Nat) (kind : Kind) (c : Cursor) :
    Reads argumentFirsts kind c (parameter floor c) :=
  reads_atomicPattern (reads_pattern floor) kind c

/-! ## Expressions -/

theorem forms_typeSignature (floor : Nat) (hkind : c.kind? = some .lowerIdent) :
    Forms [.lowerIdent] c (typeSignature floor c) :=
  .first hkind fun _ _ =>
    (((Reads.expect _).mono (by decide)).andThen (reads_type floor _ _) (by decide))

section Nested

variable {expr : Rule} (hexpr : ∀ kind c, Reads [] kind c (expr c))
include hexpr

theorem reads_parenthesizedExpr (hkind : c.kind? = some .lParen) :
    Reads [.lParen] kind c (parenthesizedExpr expr c) := by
  refine .fromHere fun c₀ hahead => ?_
  have hkind₀ := (Cursor.kind?_congr hahead).trans hkind
  dsimp only
  split
  · exact .unit hkind₀ ‹_›
  split
  · rename_i hboth
    refine .wrapFirst hkind₀ (.refl _ _ _) fun c₁ hrest => ?_
    have hahead₁ := Cursor.ahead_congr hrest
    obtain ⟨hoperator, hclose⟩ := Cursor.kind?_of_seesBoth hboth
    rw [Cursor.kind?_bump, ← Cursor.secondKind?_congr hahead₁, ← Cursor.kind?_bump] at hclose
    have hfirst : Reads [.operatorIdent] .operatorAsFunctionExpr c₁ c₁.bump.bump :=
      .first ((Cursor.kind?_congr hahead₁).trans hoperator)
        (.bump (by simp [hclose, Kind.overreach]))
    exact hfirst.mono (by decide)
  · exact .tupleOrGroup hkind₀ hexpr (by decide) (by decide)

theorem forms_listExpr (hkind : c.kind? = some .lBracket) :
    Forms [.lBracket] c (listExpr expr c) :=
  .first hkind fun _ _ =>
    (.items (hexpr _) (by decide))

theorem reads_field (kind : Kind) (c : Cursor) : Reads [.lowerIdent] kind c (field expr c) :=
  .labelled (hexpr _) (by decide) c

theorem forms_recordExpr (hkind : c.kind? = some .lBrace) :
    Forms [.lBrace] c (recordExpr expr c) := by
  refine .first hkind fun c₀ _ => ?_
  exact (reads_recordBase (by decide) c₀.bump).andThen
    (.items (reads_field hexpr _) (by decide)) (List.Subset.refl _)

theorem reads_atom (kind : Kind) (c : Cursor) : Reads atomFirsts kind c (atom expr c) := by
  refine .skipTrivia ?_
  unfold atom
  dsimp only
  split
  case h_1 hkind =>
    exact (Forms.node fun c₀ hahead =>
      (Forms.tokenNode (by simp [Cursor.kind?_congr hahead, hkind, atomFirsts])).reads).reads
  case h_2 hkind => exact (forms_qualifiedValue hkind).reads.mono (by decide)
  case h_3 hkind | h_4 hkind | h_5 hkind =>
    exact (Forms.tokenNode (by simp [hkind, atomFirsts])).reads
  case h_6 hkind =>
    have hdot : Forms [.dot] c.skipTrivia
        (Cursor.node .fieldAccessorFunctionExpr (fun c => c.bump.expect .lowerIdent)
          c.skipTrivia) :=
      .first hkind fun _ _ => (Reads.expect _).mono (by decide)
    exact hdot.reads.mono (by decide)
  case h_7 hkind => exact (reads_parenthesizedExpr hexpr hkind).mono (by decide)
  case h_8 hkind => exact (forms_listExpr hexpr hkind).reads.mono (by decide)
  case h_9 hkind => exact (forms_recordExpr hexpr hkind).reads.mono (by decide)
  case h_10 => exact (Reads.refl _ kind _).error _

theorem reads_access (kind : Kind) (c : Cursor) : Reads atomFirsts kind c (access expr c) := by
  refine .fromHere fun c₀ _ => ?_
  -- every round makes a node of all that came before, so the kind around it is not known yet
  refine Cursor.repeatWhile_keeps (P := fun c' => ∀ kind, Reads atomFirsts kind c₀ c')
    (fun _ _ kind => .cutOff _ kind c₀) (fun c' h hmore kind => ?_)
    (fun kind => reads_atom hexpr kind c₀)
    kind
  have hdot (c₁ : Cursor) (hrest : c₁.rest = c'.rest) :
      Reads [.dot] .fieldAccessExpr c₁ c₁.bump.bump := by
    have htouches : c₁.touches .dot .lowerIdent = true := by
      rwa [Cursor.touches, hrest, ← Cursor.touches]
    exact .dotted htouches (.inl rfl) (.refl _ _)
  exact (h .fieldAccessExpr).wrap hdot (by decide) (by decide)

theorem reads_application (floor : Nat) (kind : Kind) (c : Cursor) :
    Reads atomFirsts kind c (application floor expr c) := by
  refine .fromHere fun c₀ _ => ?_
  dsimp only
  split
  · refine (reads_access hexpr _ c₀).wrap (fun c₁ _ => ?_) (List.nil_subset _) (List.nil_subset _)
    refine .repeatWhile (List.nil_subset _) fun c' hmore => ?_
    simp only [atArgument, Bool.and_eq_true, Bool.not_eq_true'] at hmore
    exact (reads_access hexpr _ c').free hmore.2
  · exact reads_access hexpr kind c₀

theorem forms_negation (hkind : c.kind? = some .operatorIdent) :
    Forms [.operatorIdent] c (negation expr c) := by
  refine .first hkind fun c₀ _ => ?_
  dsimp only
  split
  · exact (reads_access hexpr _ _).mono (by decide)
  · exact (Reads.refl _ _ _).error _

theorem forms_lambda (floor : Nat) (hkind : c.kind? = some .backslash) :
    Forms [.backslash] c (lambda floor expr c) := by
  refine .first hkind fun c₀ _ => ?_
  have hparameter : Reads (Kind.overreach .anonymousFunctionExpr) .anonymousFunctionExpr c₀.bump
      (if atPattern c₀.bump then c₀.bump else c₀.bump.error .expectedLambdaParameter) := by
    split
    · exact .refl _ _ _
    · exact (Reads.refl _ _ _).error _
  have hparameters (c₁ : Cursor) : Reads argumentFirsts .anonymousFunctionExpr c₁
      (c₁.repeatWhile atPattern (parameter floor)) :=
    .repeatWhile (by decide) fun c' _ => reads_parameter floor _ c'
  exact (hparameter.andThen (hparameters _) (by decide)).andThen
    (.expectThen (hexpr _ _) (List.nil_subset _)) (by decide)

theorem forms_ifElse (hkind : c.kind? = some .ifKw) : Forms [.ifKw] c (ifElse expr c) := by
  refine .first hkind fun c₀ _ => ?_
  have hcondition := (hexpr .ifElseExpr c₀.bump).mono (List.nil_subset (Kind.overreach .ifElseExpr))
  have hthen (c₁ : Cursor) : Reads [.thenKw] .ifElseExpr c₁ (c₁.expectThen .thenKw expr) :=
    .expectThen (hexpr _ _) (List.nil_subset _)
  have helse (c₁ : Cursor) : Reads [.elseKw] .ifElseExpr c₁ (c₁.expectThen .elseKw expr) :=
    .expectThen (hexpr _ _) (List.nil_subset _)
  exact (hcondition.andThen (hthen _) (by decide)).andThen (helse _) (by decide)

theorem forms_caseBranch (floor : Nat) (c : Cursor) :
    Forms (.arrow :: patternFirsts) c (caseBranch floor expr c) := by
  refine .node fun c₀ _ => ?_
  have hpattern := (reads_pattern floor .caseOfBranch c₀).mono (List.subset_cons_self .arrow _)
  exact hpattern.trans (.expectThen (hexpr _ _) (List.nil_subset _)) (List.Subset.refl _)
    (by decide)

theorem forms_valueDeclaration (floor : Nat) (c : Cursor) :
    Forms (.eq :: patternFirsts) c (valueDeclaration floor expr c) := by
  refine .node fun c₀ _ => ?_
  have hleft : Reads (.eq :: patternFirsts) .valueDeclaration c₀
      (if c₀.sees .lowerIdent then
        Cursor.node .functionDeclarationLeft
          (fun c => c.bump.repeatWhile (atPatternArgument floor) (parameter floor)) c₀
      else pattern floor c₀) := by
    split
    · rename_i hname
      refine (Forms.first (Cursor.sees_iff.mp hname) fun c₁ _ => ?_).reads.mono (by decide)
      refine .repeatWhile (List.nil_subset _) fun c' hmore => ?_
      simp only [atPatternArgument, Bool.and_eq_true, Bool.not_eq_true'] at hmore
      exact (reads_parameter floor _ c').free hmore.2
    · exact (reads_pattern floor _ c₀).mono (List.subset_cons_self _ _)
  exact hleft.trans (.expectThen (hexpr _ _) (List.nil_subset _)) (by decide) (by decide)

theorem reads_letDeclaration (floor : Nat) (kind : Kind) (c : Cursor) :
    Reads (.eq :: patternFirsts) kind c (letDeclaration floor expr c) := by
  unfold letDeclaration
  split
  · rename_i hboth
    obtain ⟨hname, -⟩ := Cursor.kind?_of_seesBoth hboth
    exact (forms_typeSignature floor hname).reads.mono (by decide)
  split
  · exact (forms_valueDeclaration hexpr floor c).reads
  · exact (Reads.refl _ kind c).error _

theorem reads_letDeclarations (hright : floor < column) (kind : Kind) (rounds : Nat) (c : Cursor) :
    Reads [] kind c (letDeclarations column expr rounds c) := by
  induction rounds generalizing c with
  | zero => exact .cutOff _ kind c
  | succ rounds ih =>
    rw [letDeclarations]
    split
    · rename_i hmore
      simp only [Bool.and_eq_true, beq_iff_eq] at hmore
      have hfree : Reads [] kind c (letDeclaration column expr c) :=
        (reads_letDeclaration hexpr column kind c).free (Cursor.not_atLayoutEnd hmore.1 hright)
      dsimp only
      split
      · exact hfree
      · exact hfree.further (ih _)
    · exact .refl _ kind c

end Nested

section Blocks

variable {expr : Nat → Rule} (hexpr : ∀ floor kind c, Reads [] kind c (expr floor c))
include hexpr

theorem reads_caseBranches (floor : Nat) (kind : Kind) (c : Cursor) :
    Reads [] kind c (caseBranches floor expr c) := by
  unfold caseBranches
  split
  · rename_i column hcolumn
    split
    · rename_i hright
      simp only [Bool.and_eq_true, decide_eq_true_eq] at hright
      refine .repeatWhile (List.nil_subset _) fun c' hmore => ?_
      simp only [Bool.and_eq_true, beq_iff_eq] at hmore
      exact (forms_caseBranch (hexpr column) column c').reads.free
        (Cursor.not_atLayoutEnd hmore.1 hright.1)
    · exact (Reads.refl _ kind c).error _
  · exact (Reads.refl _ kind c).error _

theorem forms_caseOf (floor : Nat) (hkind : c.kind? = some .caseKw) :
    Forms [.caseKw] c (caseOf floor expr c) := by
  refine .first hkind fun c₀ _ => ?_
  have hsubject := (hexpr floor .caseOfExpr c₀.bump).mono
    (List.nil_subset (Kind.overreach .caseOfExpr))
  exact hsubject.andThen (.expectThen (reads_caseBranches hexpr floor _ _) (List.nil_subset _))
    (List.Subset.refl _)

theorem reads_letBlock (floor : Nat) (kind : Kind) (c : Cursor) :
    Reads [] kind c (letBlock floor expr c) := by
  unfold letBlock
  split
  · rename_i column hcolumn
    split
    · rename_i hright
      simp only [Bool.and_eq_true, decide_eq_true_eq] at hright
      exact reads_letDeclarations (hexpr column) hright.1 kind _ c
    · exact (Reads.refl _ kind c).error _
  · exact (Reads.refl _ kind c).error _

theorem forms_letIn (floor : Nat) (hkind : c.kind? = some .letKw) :
    Forms [.letKw] c (letIn floor expr c) := by
  refine .first hkind fun c₀ _ => ?_
  have hblock := (reads_letBlock hexpr floor .letInExpr c₀.bump).mono
    (List.nil_subset (Kind.overreach .letInExpr))
  exact hblock.andThen (.expectThen (hexpr floor _ _) (List.nil_subset _)) (List.Subset.refl _)

theorem reads_operand (hright : c.atLayoutEnd floor = false) (kind : Kind) :
    Reads [] kind c (operand floor expr c) := by
  unfold operand
  split
  case h_1 hkind => exact (forms_lambda (hexpr floor) floor hkind).reads.free hright
  case h_2 hkind => exact (forms_ifElse (hexpr floor) hkind).reads.free hright
  case h_3 hkind => exact (forms_caseOf hexpr floor hkind).reads.free hright
  case h_4 hkind => exact (forms_letIn hexpr floor hkind).reads.free hright
  case h_5 =>
    split
    · rename_i hminus
      have hkind := Cursor.kind?_of_seesOperator hminus
      exact (forms_negation (hexpr floor) hkind).reads.free hright
    · exact (reads_application (hexpr floor) floor kind c).free hright

theorem reads_operators (floor : Nat) (kind : Kind) (rounds : Nat) (c : Cursor) :
    Reads [] kind c (operators floor expr rounds c) := by
  induction rounds generalizing c with
  | zero => exact .cutOff _ kind c
  | succ rounds ih =>
    rw [operators]
    split
    · rename_i hoperator
      simp only [atOperator, Bool.and_eq_true, Bool.not_eq_true'] at hoperator
      have hfirst : Reads [.operatorIdent] kind c (Cursor.tokenNode .operator c) :=
        (Forms.tokenNode (by simp [Cursor.sees_iff.mp hoperator.1])).reads
      have hfree : Reads [] kind c (Cursor.tokenNode .operator c) := hfirst.free hoperator.2
      dsimp only
      split
      · rename_i hoperand
        simp only [Bool.and_eq_true, Bool.not_eq_true'] at hoperand
        exact (hfree.further (reads_operand hexpr hoperand.2 kind)).further (ih _)
      · exact hfree.error _
    · exact .refl _ kind c

theorem reads_exprOver (floor : Nat) (kind : Kind) (c : Cursor) :
    Reads [] kind c (exprOver floor expr c) := by
  unfold exprOver
  split
  · rename_i hoperand
    simp only [Bool.and_eq_true, Bool.not_eq_true'] at hoperand
    refine .fromHere fun c₀ hahead => ?_
    have hright : c₀.atLayoutEnd floor = false := (atLayoutEnd_congr hahead).trans hoperand.2
    dsimp only
    split
    · exact (reads_operand hexpr hright _).wrap
        (fun c₁ _ => reads_operators hexpr floor _ _ c₁) (List.nil_subset _) (List.nil_subset _)
    · exact reads_operand hexpr hright kind
  · exact (Reads.refl _ kind c).error _

end Blocks

theorem reads_expr (floor : Nat) (kind : Kind) (c : Cursor) :
    Reads [] kind c (Grammar.expr floor c) := by
  have hwithin (depth floor : Nat) (kind : Kind) (c : Cursor) :
      Reads [] kind c (exprWithin depth floor c) := by
    induction depth generalizing floor kind c with
    | zero => exact .cutOff _ kind c
    | succ depth ih => exact reads_exprOver ih floor kind c
  exact hwithin _ floor kind c

/-! ## Header and imports -/

theorem reads_exposedItem (kind : Kind) (c : Cursor) :
    Reads [.lowerIdent, .upperIdent, .lParen] kind c (exposedItem c) := by
  refine .skipTrivia ?_
  unfold exposedItem
  dsimp only
  split
  · rename_i hkind
    exact (Forms.tokenNode (by simp [hkind])).reads
  · rename_i hkind
    refine (Forms.first hkind fun c₀ _ => ?_).reads.mono (by decide)
    split
    · rename_i hboth
      obtain ⟨hopen, hdots⟩ := Cursor.kind?_of_seesBoth hboth
      refine (Forms.first hopen fun c₁ hahead₁ => ?_).reads.mono (by decide)
      rw [Cursor.kind?_bump, ← Cursor.secondKind?_congr hahead₁, ← Cursor.kind?_bump] at hdots
      exact (Reads.bump (by simp [hdots, Kind.overreach])).andThen (.expect _) (by decide)
    · exact .refl _ _ _
  · rename_i hkind
    refine (Forms.first hkind fun c₀ _ => ?_).reads.mono (by decide)
    have hoperator : Reads (Kind.overreach .exposedOperator) .exposedOperator c₀.bump
        (c₀.bump.expect .operatorIdent) := (Reads.expect _).mono (by decide)
    exact hoperator.andThen (.expect _) (by decide)
  · exact (Reads.refl _ kind _).error _

theorem reads_exposedItems (rounds : Nat) (c : Cursor) :
    Reads (Kind.overreach .exposingList) .exposingList c (exposedItems rounds c) := by
  induction rounds generalizing c with
  | zero => exact .cutOff _ _ c
  | succ rounds ih =>
    have hitem : Reads (Kind.overreach .exposingList) .exposingList c (exposedItem c) :=
      (reads_exposedItem _ c).mono (by decide)
    rw [exposedItems]
    split
    · exact hitem
    · rename_i hmore
      simp only [Bool.or_eq_true, decide_eq_true_eq, Bool.not_eq_true', not_or,
        Bool.not_eq_false] at hmore
      exact hitem.andThen (.first (Cursor.sees_iff.mp hmore.2) (ih _)) (by decide)

theorem reads_exposingList (kind : Kind) (c : Cursor) :
    Reads [.lParen] kind c (exposingList c) := by
  refine (Forms.node fun c₀ _ => ?_).reads
  refine .expectThen (Reads.andThen ?_ (.expect _) (by decide)) (List.Subset.refl _)
  split
  · rename_i hdots
    exact .bump (by simp [Cursor.sees_iff.mp hdots, Kind.overreach])
  · exact reads_exposedItems _ _

theorem forms_moduleDeclaration (c : Cursor) :
    Forms (.portKw :: Kind.overreach .moduleDeclaration) c (moduleDeclaration c) := by
  refine .node fun c₀ _ => ?_
  have hport : Reads (.portKw :: Kind.overreach .moduleDeclaration) .moduleDeclaration c₀
      (c₀.accept .portKw) := (Reads.accept c₀).mono (by decide)
  have hkeywords := hport.trans (.expect _) (by decide : [.moduleKw] ⊆ _) (by decide)
  have hname := hkeywords.trans (reads_upperCaseName _ _) (by decide) (by decide)
  exact hname.trans (.expectThen (reads_exposingList _ _) (by decide)) (by decide) (by decide)

theorem forms_asClause (hkind : c.kind? = some .asKw) : Forms [.asKw] c (asClause c) :=
  .first hkind fun _ _ => (Reads.expect _).mono (by decide)

theorem forms_importClause (c : Cursor) :
    Forms (.importKw :: Kind.overreach .importClause) c (importClause c) := by
  refine .node fun c₀ _ => ?_
  have hkeyword : Reads (.importKw :: Kind.overreach .importClause) .importClause c₀
      (c₀.expect .importKw) := (Reads.expect c₀).mono (by decide)
  have hname := hkeyword.trans (reads_upperCaseName _ _) (by decide) (by decide)
  have has (c₁ : Cursor) :
      Reads [.asKw] .importClause c₁ (if c₁.sees .asKw then asClause c₁ else c₁) := by
    split
    · exact (forms_asClause (Cursor.sees_iff.mp ‹_›)).reads
    · exact .refl _ _ c₁
  have hexposing (c₁ : Cursor) : Reads [.exposingKw] .importClause c₁
      (if c₁.sees .exposingKw then exposingList c₁.bump else c₁) := by
    split
    · exact .first (Cursor.sees_iff.mp ‹_›) ((reads_exposingList _ _).mono (by decide))
    · exact .refl _ _ c₁
  exact (hname.trans (has _) (by decide) (by decide)).trans (hexposing _) (by decide) (by decide)

/-! ## Type declarations and ports -/

theorem forms_portSignature (floor : Nat) (hkind : c.kind? = some .portKw) :
    Forms [.portKw] c (portSignature floor c) := by
  refine .first hkind fun c₀ _ => ?_
  have hname : Reads (Kind.overreach .portSignature) .portSignature c₀.bump
      (c₀.bump.expect .lowerIdent) := (Reads.expect _).mono (by decide)
  exact (hname.andThen (.expect _) (by decide)).andThen (reads_type floor _ _) (by decide)

theorem reads_typeHead (hover : [.upperIdent, .lowerIdent] ⊆ kind.overreach) (c : Cursor) :
    Reads kind.overreach kind c (typeHead c) := by
  simp only [List.cons_subset, List.nil_subset, and_true] at hover
  have hname : Reads kind.overreach kind c (c.expect .upperIdent) :=
    (Reads.expect c).mono (by simpa using hover.1)
  have hvariables : [.lowerIdent] ⊆ kind.overreach := by simpa using hover.2
  exact hname.andThen (.repeatWhile hvariables fun c' hmore =>
    .bump (by simp [Cursor.sees_iff.mp hmore])) hvariables

theorem reads_unionVariant (floor : Nat) (kind : Kind) (c : Cursor) :
    Reads [.upperIdent] kind c (unionVariant floor c) := by
  unfold unionVariant
  split
  · rename_i hname
    refine (Forms.first (Cursor.sees_iff.mp hname) fun c₀ _ => ?_).reads
    refine .repeatWhile (List.nil_subset _) fun c' hmore => ?_
    simp only [Bool.and_eq_true, Bool.not_eq_true'] at hmore
    exact (reads_typeArgument (reads_type floor) _ c').free hmore.2
  · exact (Reads.refl _ kind c).error _

theorem reads_unionVariants (hover : [.upperIdent] ⊆ kind.overreach) (floor : Nat) (c : Cursor) :
    Reads [.upperIdent] kind c (unionVariants floor c) := by
  refine (reads_unionVariant floor kind c).further (.repeatWhile (List.nil_subset _) ?_)
  intro c' hmore
  simp only [Bool.and_eq_true, Bool.not_eq_true'] at hmore
  have hvariant := (reads_unionVariant floor kind c'.bump).mono hover
  exact (Reads.first (Cursor.sees_iff.mp hmore.1) hvariant).free hmore.2

theorem forms_typeDeclaration (floor : Nat) (hkind : c.kind? = some .typeKw) :
    Forms [.typeKw] c (typeDeclaration floor c) := by
  refine .first hkind fun c₀ _ => ?_
  exact (reads_typeHead (by decide) c₀.bump).andThen
    (.expectThen (reads_unionVariants (by decide) floor _) (by decide)) (by decide)

theorem forms_typeAliasDeclaration (floor : Nat) (hkind : c.kind? = some .typeKw)
    (hsecond : c.secondKind? = some .aliasKw) :
    Forms [.typeKw] c (typeAliasDeclaration floor c) := by
  refine .first hkind fun c₀ hahead => ?_
  rw [← Cursor.secondKind?_congr hahead, ← Cursor.kind?_bump] at hsecond
  have halias : Reads (Kind.overreach .typeAliasDeclaration) .typeAliasDeclaration c₀.bump
      c₀.bump.bump := .bump (by simp [hsecond, Kind.overreach])
  exact (halias.andThen (reads_typeHead (by decide) _) (List.Subset.refl _)).andThen
    (.expectThen (reads_type floor _ _) (by decide)) (by decide)

/-! ## The file -/

/-- A tree that may stand in a file in `column`: white space, a comment, or an item in which all
arrivals are settled. -/
structure Tree.IsItem (tree : Tree) (column : Nat) : Prop where
  isTrivia : tree.isNode = false → tree.kind.isTrivia = true
  isSettled : ∀ arrival ∈ tree.arrivals column none, arrival.IsSettled

instance : AllowsTrivia fun column tree => tree.IsItem column :=
  ⟨fun _ kind _ h => ⟨fun _ => h, by simp [Tree.arrivals, h]⟩⟩

/-- A way along the file. -/
def PlacesItems : Cursor → Cursor → Prop := Yields fun column tree => tree.IsItem column

namespace PlacesItems

theorem forms (h : Forms firsts c c') : PlacesItems c c' := by
  intro huncut
  obtain ⟨node, hnode, hemits, hsettles⟩ := h huncut
  refine ⟨_, hemits, fun column hstands => ?_⟩
  refine (Tree.each_append _ _).mpr ⟨Yields.each_trivia column c,
    Tree.each_singleton.mpr ⟨?_, ?_⟩⟩
  · simp [hnode]
  · have hsettled := hsettles .file column none hstands (.item firsts c)
    simpa [Tree.arrivalsOf_append, arrivalsOf_trivia, Tree.arrivalsOf] using hsettled

theorem recover (cause : SyntaxError.Cause) (c : Cursor) :
    PlacesItems c (recover cause c) := by
  have hnode : Forms c.kind?.toList (c.error cause) (Grammar.recover cause c) := by
    refine .node fun c₀ hahead => (Reads.bump ?_).further (.repeatWhile (List.nil_subset _) ?_)
    · rw [Cursor.kind?_congr hahead]
      exact fun token htoken => Option.mem_toList.mpr htoken
    · intro c' hmore
      have hright : c'.atLayoutEnd 0 = false := by
        cases hcolumn : c'.column? with
        | none => simp [hcolumn] at hmore
        | some column => exact Cursor.not_atLayoutEnd hcolumn (by simpa [hcolumn] using hmore)
      exact (Reads.bump fun token htoken => Option.mem_toList.mpr htoken).free hright
  exact (forms hnode).behindError

theorem topLevelItem (c : Cursor) : PlacesItems c (topLevelItem c) := by
  unfold Grammar.topLevelItem
  split
  case h_1 => exact forms (forms_moduleDeclaration c)
  case h_2 => exact forms (forms_moduleDeclaration c)
  case h_3 hkind _ => exact forms (forms_portSignature 0 hkind)
  case h_4 => exact forms (forms_importClause c)
  case h_5 hkind hsecond => exact forms (forms_typeAliasDeclaration 0 hkind hsecond)
  case h_6 hkind _ => exact forms (forms_typeDeclaration 0 hkind)
  case h_7 hkind _ => exact forms (forms_typeSignature 0 hkind)
  case h_8 => exact forms (forms_valueDeclaration (reads_expr 0) 0 c)
  case h_9 => exact recover _ c

end PlacesItems

/-- What is promised of the first column of a file: between the items there are only white space and
comments, and a token in the first column begins an item, unless it arrives in a node that reaches
for it. -/
structure Tree.KeepsFirstColumn (file : Tree) : Prop where
  between : ∀ item ∈ columnsFrom 0 file.children, item.1.isNode = false →
    item.1.kind.isTrivia = true
  begins : ∀ item ∈ columnsFrom 0 file.children, ∀ arrival ∈ item.1.arrivals item.2 none,
    arrival.column = 0 →
      arrival.into? = none ∨ ∃ kind, arrival.into? = some kind ∧ arrival.kind ∈ kind.overreach

theorem parse_keepsFirstColumn (text : String) : (parse text).tree.KeepsFirstColumn := by
  obtain ⟨trees, hemits, hitems⟩ :=
    Yields.fileItems (fun c _ => PlacesItems.topLevelItem c) PlacesItems.recover
      (.beforeItems text) (isCutOff_behindItems text)
  have hstands : (Cursor.beforeItems text).Stands 0 := (stands_start text).of_rest rfl
  rw [tree_parse hemits]
  refine ⟨fun item hitem => (hitems 0 hstands item hitem).isTrivia, ?_⟩
  intro item hitem arrival harrival hcolumn
  have hsettled := (hitems 0 hstands item hitem).isSettled arrival harrival hcolumn
  cases hinto : arrival.into? with
  | none => exact .inl rfl
  | some kind => exact .inr ⟨kind, rfl, hsettled kind hinto⟩

-- A minus at the end of its line takes the name that the next declaration starts with.
example : (parse "f = -\nx = 1\n").tree.children.head?.map (·.arrivals 0 none) =
    some [⟨none, .lowerIdent, 0⟩, ⟨some .valueDeclaration, .eq, 2⟩,
      ⟨some .valueDeclaration, .operatorIdent, 4⟩, ⟨some .negateExpr, .lowerIdent, 0⟩] := by
  decide +kernel

end ElmLint.Syntax
