import ElmLint.Proofs.Syntax.Moves

/-!
# Texts that go on differently

No rule looks further ahead than to the second word, but along a qualified name. So the same is read
of two texts up to where they part, as long as two words in front of that place are left. A `Fork`
is such a pair of texts; cursors that are `Abreast` stand at the same place of what they have in
common.
-/

namespace ElmLint.Syntax

open Grammar

/-- Two ways to go on behind tokens that are left standing in both. These are two words at least,
the first of them set off from the second. -/
structure Fork where
  kept : List PlacedToken
  left : List PlacedToken
  right : List PlacedToken
  rightEnd : Nat
  two_words : ∃ first gap more, kept = first :: gap :: more ∧ first.kind.isTrivia = false ∧
    gap.kind.isTrivia = true ∧ ∃ second ∈ more, second.kind.isTrivia = false

namespace Fork

variable {F : Fork} {c d x y x' y' : Cursor} {kind : Kind} {f f' g g' : Rule}
  {front tokens : List PlacedToken}

/-- The cursors stand at the same place in front of what is left standing. -/
def Abreast (F : Fork) (c d : Cursor) : Prop :=
  ∃ front, F.kept <:+ front ∧ c.rest = front ++ F.left ∧
    d = { c with rest := front ++ F.right, textEnd := F.rightEnd }

/-- Nothing of what is left standing is consumed, and no rule is cut off. -/
structure Spares (F : Fork) (c : Cursor) : Prop where
  uncut : c.isCutOff = false
  length_le : (F.kept ++ F.left).length ≤ c.rest.length

theorem Spares.of_moves (h : F.Spares x) (hmoves : Moves c x) : F.Spares c :=
  ⟨hmoves.uncut h.uncut, h.length_le.trans hmoves.rest_suffix.length_le⟩

-- ---------------------------------------------------------------------------
-- What can be seen
-- ---------------------------------------------------------------------------

/-- In front of the parting there is a word and another one behind it. -/
theorem exists_words (h : F.kept <:+ front) :
    ∃ passed t more, front = passed ++ t :: more ∧ (∀ t ∈ passed, t.kind.isTrivia = true) ∧
      t.kind.isTrivia = false ∧ (∃ second ∈ more, second.kind.isTrivia = false) ∧
      F.kept <:+ t :: more := by
  obtain ⟨first, gap, rest, hkept, hword, -, second, hmem, hsecond⟩ := F.two_words
  obtain ⟨before, rfl⟩ := h
  rw [hkept]
  induction before with
  | nil => exact ⟨[], first, _, rfl, nofun, hword, ⟨second, .tail _ hmem, hsecond⟩, List.suffix_rfl⟩
  | cons t before ih =>
    cases ht : t.kind.isTrivia with
    | false =>
      refine ⟨[], t, _, rfl, nofun, ht, ⟨first, ?_, hword⟩, t :: before, rfl⟩
      exact List.mem_append_right _ List.mem_cons_self
    | true =>
      obtain ⟨passed, u, more, hsplit, hpassed, hu, hmore⟩ := ih
      exact ⟨t :: passed, u, more, by rw [List.cons_append, hsplit]; rfl,
        List.forall_mem_cons.mpr ⟨ht, hpassed⟩, hu, hmore⟩

theorem dropWhile_passed {passed more : List PlacedToken} {t : PlacedToken}
    (hpassed : ∀ t ∈ passed, t.kind.isTrivia = true) (ht : t.kind.isTrivia = false) :
    (passed ++ t :: more).dropWhile (·.kind.isTrivia) = t :: more ∧
      (passed ++ t :: more).takeWhile (·.kind.isTrivia) = passed := by
  rw [List.dropWhile_append_of_pos hpassed, List.takeWhile_append_of_pos hpassed]
  simp [ht]

/-- The cursors see the same word, and what is behind it goes on up to the parting. -/
theorem Abreast.exists_ahead (h : F.Abreast c d) :
    ∃ t more, c.ahead = t :: (more ++ F.left) ∧ d.ahead = t :: (more ++ F.right) ∧
      c.trivia = d.trivia ∧ (∃ second ∈ more, second.kind.isTrivia = false) ∧
      F.kept <:+ t :: more := by
  obtain ⟨front, hkept, hc, rfl⟩ := h
  obtain ⟨passed, t, more, rfl, hpassed, ht, hsecond, hmore⟩ := exists_words hkept
  have hsplit (tokens : List PlacedToken) :
      passed ++ t :: more ++ tokens = passed ++ t :: (more ++ tokens) := by simp
  rw [hsplit] at hc
  refine ⟨t, more, ?_, ?_, ?_, hsecond, hmore⟩
  · rw [Cursor.ahead, hc, (dropWhile_passed hpassed ht).1]
  · rw [Cursor.ahead, hsplit, (dropWhile_passed hpassed ht).1]
  · rw [Cursor.trivia, Cursor.trivia, hc, hsplit, (dropWhile_passed hpassed ht).2,
      (dropWhile_passed hpassed ht).2]

/-- Right in front of what is left standing, the other cursor stands there, too. -/
theorem Abreast.ahead_eq (h : F.Abreast c d) (hc : c.ahead = F.kept ++ F.left) :
    d.ahead = F.kept ++ F.right := by
  obtain ⟨t, more, hahead, hahead', -⟩ := h.exists_ahead
  have hkept : t :: more = F.kept :=
    List.append_cancel_right ((List.cons_append ..).trans (hahead.symm.trans hc))
  rw [hahead', ← hkept, List.cons_append]

/-- A name does not go on over white space. -/
theorem continuesToValue_append {more : List PlacedToken} {gap : PlacedToken} (hmem : gap ∈ more)
    (hgap : gap.kind.isTrivia = true) (tokens : List PlacedToken) :
    continuesToValue (more ++ tokens) = continuesToValue more := by
  have hne (kind : Kind) (hkind : kind.isTrivia = false) : gap.kind ≠ kind := fun heq => by
    rw [heq, hkind] at hgap
    cases hgap
  have hdot := hne .dot rfl
  have hupper := hne .upperIdent rfl
  induction more using List.twoStepInduction with
  | nil => cases hmem
  | singleton t =>
    obtain rfl := List.mem_singleton.mp hmem
    cases tokens <;> simp [continuesToValue, hdot]
  | cons_cons dot segment more ih _ =>
    obtain rfl | rfl | hmem : gap = dot ∨ gap = segment ∨ gap ∈ more := by simpa using hmem
    · simp [continuesToValue, hdot]
    · simp [continuesToValue, hupper]
    · simp only [List.cons_append, continuesToValue, ih hmem]

namespace Abreast

theorem next?_eq (h : F.Abreast c d) : c.next? = d.next? := by
  obtain ⟨t, more, hc, hd, -⟩ := h.exists_ahead
  rw [Cursor.next?, Cursor.next?, hc, hd, List.head?_cons, List.head?_cons]

theorem second?_eq (h : F.Abreast c d) : c.second? = d.second? := by
  obtain ⟨t, more, hc, hd, -, ⟨second, hmem, hsecond⟩, -⟩ := h.exists_ahead
  have hne : more.dropWhile (·.kind.isTrivia) ≠ [] := fun hnil => by
    rw [List.dropWhile_eq_nil_iff.mp hnil second hmem] at hsecond
    cases hsecond
  have hhead (tokens : List PlacedToken) :
      ((more ++ tokens).dropWhile (·.kind.isTrivia)).head? =
        (more.dropWhile (·.kind.isTrivia)).head? := by
    rw [List.dropWhile_append, if_neg (by simpa using hne), List.head?_append_of_ne_nil _ hne]
  rw [Cursor.second?, Cursor.second?, hc, hd, List.tail_cons, List.tail_cons, hhead, hhead]

theorem kind?_eq (h : F.Abreast c d) : c.kind? = d.kind? := by
  rw [Cursor.kind?, Cursor.kind?, h.next?_eq]

theorem secondKind?_eq (h : F.Abreast c d) : c.secondKind? = d.secondKind? := by
  rw [Cursor.secondKind?, Cursor.secondKind?, h.second?_eq]

theorem column?_eq (h : F.Abreast c d) : c.column? = d.column? := by
  rw [Cursor.column?, Cursor.column?, h.next?_eq]

theorem sees_eq (h : F.Abreast c d) (kind : Kind) : c.sees kind = d.sees kind := by
  rw [Cursor.sees, Cursor.sees, h.kind?_eq]

theorem seesAny_eq (h : F.Abreast c d) (kinds : List Kind) : c.seesAny kinds = d.seesAny kinds := by
  rw [Cursor.seesAny, Cursor.seesAny, h.kind?_eq]

theorem seesBoth_eq (h : F.Abreast c d) (first second : Kind) :
    c.seesBoth first second = d.seesBoth first second := by
  rw [Cursor.seesBoth, Cursor.seesBoth, h.sees_eq, h.secondKind?_eq]

theorem seesOperator_eq (h : F.Abreast c d) (symbol : String) :
    c.seesOperator symbol = d.seesOperator symbol := by
  rw [Cursor.seesOperator, Cursor.seesOperator, h.next?_eq]

theorem atEnd_eq (h : F.Abreast c d) : c.atEnd = d.atEnd := by
  rw [Cursor.atEnd, Cursor.atEnd, h.next?_eq]

theorem atLayoutEnd_eq (h : F.Abreast c d) (floor : Nat) :
    c.atLayoutEnd floor = d.atLayoutEnd floor := by
  rw [Cursor.atLayoutEnd, Cursor.atLayoutEnd, h.column?_eq]

theorem touches_eq (h : F.Abreast c d) (first second : Kind) :
    c.touches first second = d.touches first second := by
  obtain ⟨front, hkept, hc, rfl⟩ := h
  obtain ⟨passed, t, more, rfl, -, -, ⟨second, hmem, -⟩, -⟩ := exists_words hkept
  rw [Cursor.touches, Cursor.touches, hc]
  obtain ⟨u, more, rfl⟩ := List.exists_cons_of_ne_nil (List.ne_nil_of_mem hmem)
  cases passed with
  | nil => rfl
  | cons first passed => cases passed <;> rfl

theorem namesValue_eq (h : F.Abreast c d) : namesValue c = namesValue d := by
  obtain ⟨t, more, hc, hd, -, -, hkept⟩ := h.exists_ahead
  obtain ⟨first, gap, rest, hfirst, -, hgap, -⟩ := F.two_words
  have hmem : gap ∈ more := by
    rw [hfirst] at hkept
    have htail : gap :: rest <:+ more := by
      obtain ⟨before, hbefore⟩ := hkept
      cases before with
      | nil => exact (List.cons.inj hbefore).2 ▸ List.suffix_rfl
      | cons u before => exact ⟨before ++ [first], by simpa using (List.cons.inj hbefore).2⟩
    exact htail.subset List.mem_cons_self
  simp only [namesValue, hc, hd, continuesToValue_append hmem hgap]

/-- If one cursor stood still, so did the other. -/
theorem still_iff (h : F.Abreast c d) (h' : F.Abreast x y) :
    x.rest.length = c.rest.length ↔ y.rest.length = d.rest.length := by
  obtain ⟨front, -, hc, rfl⟩ := h
  obtain ⟨front', -, hx, rfl⟩ := h'
  simp only [hc, hx, List.length_append, Nat.add_right_cancel_iff]

theorem still_eq (h : F.Abreast c d) (h' : F.Abreast x y) :
    decide (x.rest.length = c.rest.length) = decide (y.rest.length = d.rest.length) :=
  decide_eq_decide.mpr (h.still_iff h')

-- ---------------------------------------------------------------------------
-- Moves
-- ---------------------------------------------------------------------------

theorem skipTrivia (h : F.Abreast c d) : F.Abreast c.skipTrivia d.skipTrivia := by
  obtain ⟨t, more, hc, hd, htrivia, -, hkept⟩ := h.exists_ahead
  refine ⟨t :: more, hkept, ?_, ?_⟩
  · rw [Cursor.rest_skipTrivia, hc, List.cons_append]
  · rw [Cursor.skipTrivia_eq, Cursor.skipTrivia_eq, ← htrivia, hd]
    obtain ⟨front, -, -, rfl⟩ := h
    rfl

theorem bump (h : F.Abreast c d) (hspares : F.Spares c.bump) : F.Abreast c.bump d.bump := by
  obtain ⟨t, more, hc, hd, htrivia, -, hkept⟩ := h.exists_ahead
  rw [Cursor.bump_of_ahead hc] at hspares ⊢
  rw [Cursor.bump_of_ahead hd, ← htrivia]
  refine ⟨more, ?_, rfl, ?_⟩
  · have hle := hspares.length_le
    simp only [List.length_append] at hle
    exact List.suffix_of_suffix_length_le hkept (List.suffix_cons t more) (by omega)
  · obtain ⟨front, -, -, rfl⟩ := h
    rfl

theorem error (h : F.Abreast c d) (cause : SyntaxError.Cause) :
    F.Abreast (c.error cause) (d.error cause) := by
  have hnext := h.next?_eq
  obtain ⟨t, more, hc, -⟩ := h.exists_ahead
  have hsome : c.next? = some t := by rw [Cursor.next?, hc, List.head?_cons]
  obtain ⟨front, hkept, hrest, rfl⟩ := h
  refine ⟨front, hkept, hrest, ?_⟩
  rw [Cursor.error, Cursor.error, ← hnext, hsome]

end Abreast

-- ---------------------------------------------------------------------------
-- Rules
-- ---------------------------------------------------------------------------

/-- The cursors are abreast, unless one of them went too far. -/
def Pace (F : Fork) (x y : Cursor) : Prop := F.Spares x → y.isCutOff = false → F.Abreast x y

/-- The rules keep cursors abreast. -/
structure Paced (F : Fork) (f f' : Rule) : Prop where
  left : IsWalk f
  right : IsWalk f'
  pace : ∀ {c d : Cursor}, F.Abreast c d → F.Pace (f c) (f' d)

namespace Abreast

theorem pace (h : F.Abreast c d) : F.Pace c d := fun _ _ => h

theorem node (h : F.Abreast c d)
    (hf : ∀ {c d : Cursor}, F.Abreast c d → F.Pace (f c) (f' d)) :
    F.Pace (c.node kind f) (d.node kind f') := by
  intro hspares hcut
  have hstart : F.Abreast (c.skipTrivia.startNode kind) (d.skipTrivia.startNode kind) := by
    obtain ⟨front, hkept, hrest, hd⟩ := h.skipTrivia
    exact ⟨front, hkept, hrest, congrArg (Cursor.startNode kind) hd⟩
  obtain ⟨front, hkept, hrest, hend⟩ := hf hstart ⟨hspares.uncut, hspares.length_le⟩ hcut
  exact ⟨front, hkept, hrest, congrArg Cursor.finishNode hend⟩

end Abreast

namespace Pace

theorem on (h : F.Pace x y) (hf : F.Paced f f') : F.Pace (f x) (f' y) := fun hspares hcut =>
  hf.pace (h (hspares.of_moves (hf.left x)) ((hf.right y).uncut hcut)) hspares hcut

theorem wrap (h : F.Pace x y) (hkind : kind.isName = false) (hf : F.Paced f f')
    (checkpoint : Nat) : F.Pace (x.wrap checkpoint kind f) (y.wrap checkpoint kind f') := by
  intro hspares hcut
  have hx : Moves x (x.wrap checkpoint kind f) := (Moves.refl x).wrap hkind checkpoint hf.left
  have hy : Moves y (y.wrap checkpoint kind f') := (Moves.refl y).wrap hkind checkpoint hf.right
  have hstart : F.Abreast (x.startNodeAt checkpoint kind) (y.startNodeAt checkpoint kind) := by
    obtain ⟨front, hkept, hrest, rfl⟩ := h (hspares.of_moves hx) (hy.uncut hcut)
    exact ⟨front, hkept, hrest, rfl⟩
  obtain ⟨front, hkept, hrest, hend⟩ := hf.pace hstart ⟨hspares.uncut, hspares.length_le⟩ hcut
  exact ⟨front, hkept, hrest, congrArg Cursor.finishNode hend⟩

end Pace

namespace Paced

theorem refl : F.Paced (fun c => c) (fun c => c) := ⟨.refl, .refl, Abreast.pace⟩

theorem ite {p : Cursor → Bool} (hp : ∀ {c d : Cursor}, F.Abreast c d → p c = p d)
    (hf : F.Paced f f') (hg : F.Paced g g') :
    F.Paced (fun c => if p c then f c else g c) (fun c => if p c then f' c else g' c) where
  left c := .ite (hf.left c) (hg.left c)
  right d := .ite (hf.right d) (hg.right d)
  pace h := by
    rw [hp h]
    split
    · exact hf.pace h
    · exact hg.pace h

theorem skipTrivia : F.Paced Cursor.skipTrivia Cursor.skipTrivia :=
  ⟨.skipTrivia, .skipTrivia, fun h => h.skipTrivia.pace⟩

theorem bump : F.Paced Cursor.bump Cursor.bump :=
  ⟨.bump, .bump, fun h hspares _ => h.bump hspares⟩

theorem bumpTwice : F.Paced (fun c => c.bump.bump) (fun c => c.bump.bump) :=
  ⟨.bumpTwice, .bumpTwice, fun h => (bump.pace h).on bump⟩

theorem error (cause : SyntaxError.Cause) : F.Paced (Cursor.error cause) (Cursor.error cause) :=
  ⟨.error cause, .error cause, fun h => (h.error cause).pace⟩

theorem expectThen (hf : F.Paced f f') :
    F.Paced (Cursor.expectThen kind f) (Cursor.expectThen kind f') where
  left c := (Moves.refl c).expectThen hf.left
  right d := (Moves.refl d).expectThen hf.right
  pace h := by
    unfold Cursor.expectThen
    rw [h.sees_eq]
    split
    · exact (bump.pace h).on hf
    · exact (error _).pace h

theorem expect (kind : Kind) : F.Paced (Cursor.expect kind) (Cursor.expect kind) :=
  .ite (fun h => h.sees_eq kind) bump (error _)

theorem accept (kind : Kind) : F.Paced (Cursor.accept kind) (Cursor.accept kind) :=
  .ite (fun h => h.sees_eq kind) bump refl

theorem node (hkind : kind.isName = false) (hf : F.Paced f f') :
    F.Paced (Cursor.node kind f) (Cursor.node kind f') where
  left := .node hkind hf.left
  right := .node hkind hf.right
  pace h := h.node hf.pace

theorem tokenNode (kind : Kind) (hkind : kind.isName = false) :
    F.Paced (Cursor.tokenNode kind) (Cursor.tokenNode kind) := node hkind bump

theorem fromHere {rule rule' : Nat → Rule} (h : ∀ n, F.Paced (rule n) (rule' n)) :
    F.Paced (Cursor.fromHere rule) (Cursor.fromHere rule') where
  left := .fromHere fun n => (h n).left
  right := .fromHere fun n => (h n).right
  pace {c d} habreast := by
    have hskip := habreast.skipTrivia
    have hbuilder : d.skipTrivia.builder = c.skipTrivia.builder := by
      obtain ⟨front, -, -, hd⟩ := hskip
      rw [hd]
    rw [Cursor.fromHere, Cursor.fromHere, hbuilder]
    exact (h _).pace hskip

theorem andThen (hf : F.Paced f f') (hg : F.Paced g g') :
    F.Paced (fun c => g (f c)) (fun c => g' (f' c)) where
  left c := (Moves.refl c).on hf.left |>.on hg.left
  right d := (Moves.refl d).on hf.right |>.on hg.right
  pace h := (hf.pace h).on hg

/-- A rule, and what comes behind it depends on where it started, too. -/
theorem thenEither {p : Cursor → Cursor → Prop} [∀ c x, Decidable (p c x)] {k k' : Rule}
    (hp : ∀ {c d x y : Cursor}, F.Abreast c d → F.Abreast x y → (p c x ↔ p d y))
    (hf : F.Paced f f') (hg : F.Paced g g') (hk : F.Paced k k') :
    F.Paced (fun c => if p c (f c) then g (f c) else k (f c))
      (fun c => if p c (f' c) then g' (f' c) else k' (f' c)) where
  left c := .ite ((hf.left c).on hg.left) ((hf.left c).on hk.left)
  right d := .ite ((hf.right d).on hg.right) ((hf.right d).on hk.right)
  pace {c d} h := by
    intro hspares hcut
    have hleft : Moves (f c) (if p c (f c) then g (f c) else k (f c)) :=
      .ite (hg.left _) (hk.left _)
    have hright : Moves (f' d) (if p d (f' d) then g' (f' d) else k' (f' d)) :=
      .ite (hg.right _) (hk.right _)
    have hiff := hp h (hf.pace h (hspares.of_moves hleft) (hright.uncut hcut))
    by_cases hstop : p c (f c)
    · rw [if_pos hstop] at hspares ⊢
      rw [if_pos (hiff.mp hstop)] at hcut ⊢
      exact ((hf.pace h).on hg) hspares hcut
    · rw [if_neg hstop] at hspares ⊢
      rw [if_neg fun hq => hstop (hiff.mpr hq)] at hcut ⊢
      exact ((hf.pace h).on hk) hspares hcut

theorem wrap (kind : Kind) (hkind : kind.isName = false) (checkpoint : Nat) (hf : F.Paced f f') :
    F.Paced (Cursor.wrap checkpoint kind f) (Cursor.wrap checkpoint kind f') where
  left c := (Moves.refl c).wrap hkind checkpoint hf.left
  right d := (Moves.refl d).wrap hkind checkpoint hf.right
  pace h := h.pace.wrap hkind hf checkpoint

/-! ## Bounds -/

theorem cutOff_left (hcut : ∀ c, f c = c.cutOff) (hf' : IsWalk f') : F.Paced f f' where
  left c := by
    rw [hcut]
    exact (Moves.refl c).move (.cutOff c)
  right := hf'
  pace {c _} _ hspares := by
    have huncut := hspares.uncut
    rw [hcut] at huncut
    cases huncut

theorem cutOff_right (hf : IsWalk f) (hcut : ∀ d, f' d = d.cutOff) : F.Paced f f' where
  left := hf
  right d := by
    rw [hcut]
    exact (Moves.refl d).move (.cutOff d)
  pace {_ d} _ _ huncut := by
    rw [hcut] at huncut
    cases huncut

/-- Rules with a bound, at which they are cut off, whatever the bounds are. -/
theorem bounded {ι : Type} (rule rule' : ι → Nat → Rule) (hcut : ∀ i c, rule i 0 c = c.cutOff)
    (hcut' : ∀ i c, rule' i 0 c = c.cutOff)
    (hstep : ∀ n m, (∀ i, F.Paced (rule i n) (rule' i m)) →
      ∀ i, F.Paced (rule i (n + 1)) (rule' i (m + 1))) (n m : Nat) :
    ∀ i, F.Paced (rule i n) (rule' i m) := by
  -- Walks are there for all bounds once the two sides have the same.
  have hsame (n : Nat) : ∀ i, F.Paced (rule i n) (rule' i n) := by
    induction n with
    | zero =>
      refine fun i => cutOff_left (hcut i) fun d => ?_
      rw [hcut']
      exact (Moves.refl d).move (.cutOff d)
    | succ n ih => exact hstep n n ih
  induction n generalizing m with
  | zero => exact fun i => cutOff_left (hcut i) (hsame m i).right
  | succ n ih =>
    cases m with
    | zero => exact fun i => cutOff_right (hsame (n + 1) i).left (hcut' i)
    | succ m => exact hstep n m (ih m)

/-- The same for one rule. -/
theorem rounds (rule rule' : Nat → Rule) (hcut : ∀ c, rule 0 c = c.cutOff)
    (hcut' : ∀ c, rule' 0 c = c.cutOff)
    (hstep : ∀ n m, F.Paced (rule n) (rule' m) → F.Paced (rule (n + 1)) (rule' (m + 1)))
    (n m : Nat) : F.Paced (rule n) (rule' m) :=
  bounded (fun (_ : Unit) => rule) (fun _ => rule') (fun _ => hcut) (fun _ => hcut')
    (fun n m h _ => hstep n m (h ())) n m ()

/-- A bound that lies above the number of tokens left. -/
theorem unbounded {rule rule' : Nat → Rule} (h : ∀ n m, F.Paced (rule n) (rule' m)) :
    F.Paced (fun c => rule (c.rest.length + 1) c) (fun c => rule' (c.rest.length + 1) c) where
  left c := (h _ 0).left c
  right d := (h 0 _).right d
  pace habreast := (h _ _).pace habreast

theorem repeatWhile {more : Cursor → Bool}
    (hmore : ∀ {c d : Cursor}, F.Abreast c d → more c = more d) (hf : F.Paced f f') :
    F.Paced (Cursor.repeatWhile more f) (Cursor.repeatWhile more f') :=
  unbounded <| rounds (Cursor.repeatWhile.go more f) (Cursor.repeatWhile.go more f')
    (fun _ => rfl) (fun _ => rfl) fun _ _ ih => .ite hmore (hf.andThen ih) refl

theorem commas (hf : F.Paced f f') :
    F.Paced (Cursor.repeatWhile (·.sees .comma) fun c => f c.bump)
      (Cursor.repeatWhile (·.sees .comma) fun c => f' c.bump) :=
  repeatWhile (fun h => h.sees_eq _) (bump.andThen hf)

theorem commaSeparated (hf : F.Paced f f') :
    F.Paced (Cursor.commaSeparated f) (Cursor.commaSeparated f') := hf.andThen (commas hf)

/-- Items up to a closing bracket, where there may be none. -/
theorem items {closing : Kind} (hf : F.Paced f f') :
    F.Paced (fun c => (if c.sees closing then c else c.commaSeparated f).expect closing)
      (fun c => (if c.sees closing then c else c.commaSeparated f').expect closing) :=
  (ite (fun h => h.sees_eq closing) refl (commaSeparated hf)).andThen (expect closing)

/-- Behind the first item in parentheses: more of them after commas, or the closing one. -/
theorem tupleOrGroup (tuple group : Kind) (htuple : tuple.isName = false)
    (hgroup : group.isName = false) (hf : F.Paced f f') (checkpoint : Nat) :
    F.Paced
      (fun c => if c.sees .comma then
        c.wrap checkpoint tuple fun c =>
          (c.repeatWhile (·.sees .comma) fun c => f c.bump).expect .rParen
      else c.wrap checkpoint group (·.expect .rParen))
      (fun c => if c.sees .comma then
        c.wrap checkpoint tuple fun c =>
          (c.repeatWhile (·.sees .comma) fun c => f' c.bump).expect .rParen
      else c.wrap checkpoint group (·.expect .rParen)) :=
  ite (fun h => h.sees_eq _) (wrap tuple htuple checkpoint ((commas hf).andThen (expect _)))
    (wrap group hgroup checkpoint (expect _))

end Paced

end Fork

end ElmLint.Syntax
