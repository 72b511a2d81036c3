import Mathlib.Data.List.Induction
import Mathlib.Logic.ExistsUnique
import Mathlib.Order.Bounds.Basic

/-!
# Chains resolved by precedence

A chain is a first operand and the operators behind it, each with the operand on its right. Resolving
gives it a tree, in which an operator stands above those that bind tighter, and those of one level
stand to the side that the level groups to. Every chain has exactly one such tree, and what an
operator has on its left in it can be read off the chain.
-/

namespace ElmLint.Lint

variable {α : Type}

inductive Side where
  | left | right
  deriving DecidableEq, Repr

/-- An expression over operands and operators with two of them. -/
inductive Grouping (α : Type) where
  | operand (e : α)
  | binary (left : Grouping α) (operator : α) (right : Grouping α)
  deriving DecidableEq, Repr

namespace Grouping

/-- The first operand in the text. -/
def first : Grouping α → α
  | .operand e => e
  | .binary left _ _ => left.first

/-- The operators in text order, each with the operand behind it. -/
def links : Grouping α → List (α × α)
  | .operand _ => []
  | .binary left operator right => left.links ++ (operator, right.first) :: right.links

/-- What the operator number `i` has on its left. -/
def leftOf? : Grouping α → Nat → Option (Grouping α)
  | .operand _, _ => none
  | .binary left _ right, i =>
    if i < left.links.length then left.leftOf? i
    else if i = left.links.length then some left
    else right.leftOf? (i - (left.links.length + 1))

/-- The second operator can stand under the first on this side: it binds tighter, or both are of one
level that groups to the side. -/
def Holds (level : α → Nat) (groups : Nat → Side) (side : Side) (upper lower : α) : Prop :=
  level upper < level lower ∨ level upper = level lower ∧ groups (level upper) = side

instance (level : α → Nat) (groups : Nat → Side) (side : Side) (upper lower : α) :
    Decidable (Holds level groups side upper lower) :=
  inferInstanceAs (Decidable (_ ∨ _))

inductive IsResolved (level : α → Nat) (groups : Nat → Side) : Grouping α → Prop
  | operand (e : α) : IsResolved level groups (.operand e)
  | binary {left right : Grouping α} {operator : α} (hleft : IsResolved level groups left)
    (hright : IsResolved level groups right)
    (hunderLeft : ∀ link ∈ left.links, Holds level groups .left operator link.1)
    (hunderRight : ∀ link ∈ right.links, Holds level groups .right operator link.1) :
    IsResolved level groups (.binary left operator right)

variable {level : α → Nat} {groups : Nat → Side} {t t' : Grouping α}
  {upper middle lower operator operator' e : α} {i : Nat}

-- ---------------------------------------------------------------------------
-- Resolving
-- ---------------------------------------------------------------------------

/-- The tree with one more operator and operand behind it. -/
def attach (level : α → Nat) (groups : Nat → Side) (link : α × α) : Grouping α → Grouping α
  | .operand e => .binary (.operand e) link.1 (.operand link.2)
  | .binary left operator right =>
    if Holds level groups .right operator link.1 then
      .binary left operator (attach level groups link right)
    else .binary (.binary left operator right) link.1 (.operand link.2)

def resolve (level : α → Nat) (groups : Nat → Side) (first : α) (links : List (α × α)) :
    Grouping α :=
  links.foldl (fun t link => t.attach level groups link) (.operand first)

@[simp] theorem first_attach (link : α × α) (t : Grouping α) :
    (t.attach level groups link).first = t.first := by
  cases t with
  | operand => rfl
  | binary left operator right => rw [attach]; split <;> rfl

@[simp] theorem links_attach (link : α × α) (t : Grouping α) :
    (t.attach level groups link).links = t.links ++ [link] := by
  induction t with
  | operand => rfl
  | binary left operator right ihl ihr => rw [attach]; split <;> simp [links, first, ihr]

/-- Of two operators one can stand under the other, to the side where it is. -/
theorem holds_left_of_not_holds_right (h : ¬ Holds level groups .right upper lower) :
    Holds level groups .left lower upper := by
  simp only [Holds, not_or, not_and] at h ⊢
  obtain hlt | heq := Nat.lt_or_eq_of_le (Nat.le_of_not_lt h.1)
  · exact .inl hlt
  · have hside := h.2 heq.symm
    refine .inr ⟨heq, ?_⟩
    rw [heq]
    cases hgroups : groups (level upper) with
    | left => rfl
    | right => exact absurd hgroups hside

theorem holds_trans {side side' : Side} (h : Holds level groups side upper middle)
    (h' : Holds level groups side' middle lower) : Holds level groups side upper lower := by
  obtain hlt | ⟨heq, hside⟩ := h <;> obtain hlt' | ⟨heq', -⟩ := h'
  · exact .inl (Nat.lt_trans hlt hlt')
  · exact .inl (heq' ▸ hlt)
  · exact .inl (heq ▸ hlt')
  · exact .inr ⟨heq.trans heq', hside⟩

/-- No two operators can each stand under the other, one on its left and one on its right. -/
theorem Holds.not_holds (h : Holds level groups .left upper lower) :
    ¬ Holds level groups .right lower upper := by
  rintro (hlt' | ⟨heq', hright⟩) <;> obtain hlt | ⟨heq, hleft⟩ := h
  · omega
  · omega
  · omega
  · rw [heq, hright] at hleft
    cases hleft

theorem isResolved_attach (link : α × α) (h : t.IsResolved level groups) :
    (t.attach level groups link).IsResolved level groups := by
  induction h with
  | operand => exact .binary (.operand _) (.operand _) nofun nofun
  | @binary left right operator hleft hright hunderLeft hunderRight ihl ihr =>
    rw [attach]
    split
    case isTrue hunder =>
      refine .binary hleft ihr hunderLeft fun link' hlink' => ?_
      rw [links_attach, List.mem_append, List.mem_singleton] at hlink'
      obtain hlink' | rfl := hlink'
      · exact hunderRight link' hlink'
      · exact hunder
    case isFalse habove =>
      have hunder := holds_left_of_not_holds_right habove
      refine .binary (.binary hleft hright hunderLeft hunderRight) (.operand _) ?_ nofun
      intro link' hlink'
      rw [links, List.mem_append, List.mem_cons] at hlink'
      obtain hlink' | rfl | hlink' := hlink'
      · exact holds_trans hunder (hunderLeft link' hlink')
      · exact hunder
      · exact holds_trans hunder (hunderRight link' hlink')

theorem resolve_isResolved (level : α → Nat) (groups : Nat → Side) (first : α)
    (links : List (α × α)) :
    (resolve level groups first links).IsResolved level groups ∧
      (resolve level groups first links).first = first ∧
      (resolve level groups first links).links = links := by
  induction links using List.reverseRecOn with
  | nil => exact ⟨.operand first, rfl, rfl⟩
  | append_singleton links link ih =>
    obtain ⟨hresolved, hfirst, hlinks⟩ := ih
    rw [resolve, List.foldl_append, List.foldl_cons, List.foldl_nil, ← resolve]
    exact ⟨isResolved_attach link hresolved, by rw [first_attach, hfirst],
      by rw [links_attach, hlinks]⟩

-- ---------------------------------------------------------------------------
-- There is only one resolved tree
-- ---------------------------------------------------------------------------

/-- A list that is split in two ways is split at one place, or at a place behind the other. -/
theorem split_cases {β : Type} {front front' back back' : List β} {b b' : β}
    (h : front ++ b :: back = front' ++ b' :: back') :
    (front = front' ∧ b = b' ∧ back = back') ∨
      (∃ middle, front' = front ++ b :: middle ∧ back = middle ++ b' :: back') ∨
      ∃ middle, front = front' ++ b' :: middle ∧ back' = middle ++ b :: back := by
  obtain ⟨middle, rfl, hback⟩ | ⟨middle, rfl, hback⟩ := List.append_eq_append_iff.mp h
  · cases middle with
    | nil =>
      obtain ⟨rfl, rfl⟩ := List.cons_eq_cons.mp hback
      exact .inl ⟨(List.append_nil _).symm, rfl, rfl⟩
    | cons head middle =>
      obtain ⟨rfl, rfl⟩ := List.cons_eq_cons.mp hback
      exact .inr (.inl ⟨middle, rfl, rfl⟩)
  · cases middle with
    | nil =>
      obtain ⟨rfl, rfl⟩ := List.cons_eq_cons.mp hback
      exact .inl ⟨List.append_nil _, rfl, rfl⟩
    | cons head middle =>
      obtain ⟨rfl, rfl⟩ := List.cons_eq_cons.mp hback
      exact .inr (.inr ⟨middle, rfl, rfl⟩)

/-- Two resolved trees of one chain have the same operator at the top, since otherwise each of the
two operators would stand under the other, and to a side of its own. -/
theorem IsResolved.unique (h : t.IsResolved level groups) (h' : t'.IsResolved level groups)
    (hfirst : t.first = t'.first) (hlinks : t.links = t'.links) : t = t' := by
  induction h generalizing t' with
  | operand e =>
    cases h' with
    | operand e' => exact congrArg Grouping.operand hfirst
    | binary => simp [links] at hlinks
  | @binary left right operator hleft hright hunderLeft hunderRight ihl ihr =>
    cases h' with
    | operand => simp [links] at hlinks
    | @binary left' right' operator' hleft' hright' hunderLeft' hunderRight' =>
      obtain ⟨hl, htop, hr⟩ | ⟨_, hl, hr⟩ | ⟨_, hl, hr⟩ := split_cases hlinks
      · obtain ⟨rfl, hfirst'⟩ := Prod.mk.inj htop
        rw [ihl hleft' hfirst hl, ihr hright' hfirst' hr]
      · have hunder := hunderLeft' (operator, right.first) (by simp [hl])
        exact absurd (hunderRight (operator', right'.first) (by simp [hr])) hunder.not_holds
      · have hunder := hunderLeft (operator', right'.first) (by simp [hl])
        exact absurd (hunderRight' (operator, right.first) (by simp [hr])) hunder.not_holds

theorem existsUnique_isResolved (level : α → Nat) (groups : Nat → Side) (first : α)
    (links : List (α × α)) :
    ∃! t : Grouping α, t.IsResolved level groups ∧ t.first = first ∧ t.links = links := by
  refine ⟨_, resolve_isResolved level groups first links, ?_⟩
  rintro t ⟨hresolved, hfirst, hlinks⟩
  obtain ⟨hresolved', hfirst', hlinks'⟩ := resolve_isResolved level groups first links
  exact hresolved.unique hresolved' (hfirst.trans hfirst'.symm) (hlinks.trans hlinks'.symm)

-- ---------------------------------------------------------------------------
-- Left operands
-- ---------------------------------------------------------------------------

/-- The operators of `run` are all tight and stand at the end of the chain, behind the operand
`start`. The operator in front of this operand, if there is one, is not tight. -/
structure EndsWithRun (tight : α → Prop) (first : α) (links : List (α × α)) (start : α)
    (run : List (α × α)) : Prop where
  all_tight : ∀ link ∈ run, tight link.1
  stop : (links = run ∧ first = start) ∨
    ∃ outer operator, links = outer ++ (operator, start) :: run ∧ ¬ tight operator

theorem EndsWithRun.congr {tight tight' : α → Prop} {first start : α} {links run : List (α × α)}
    (h : EndsWithRun tight first links start run)
    (hiff : ∀ link ∈ links, tight link.1 ↔ tight' link.1) :
    EndsWithRun tight' first links start run := by
  obtain ⟨htight, ⟨rfl, rfl⟩ | ⟨outer, operator, rfl, hloose⟩⟩ := h
  · exact ⟨fun link hlink => (hiff link hlink).mp (htight link hlink), .inl ⟨rfl, rfl⟩⟩
  · refine ⟨fun link hlink => (hiff link (by simp [hlink])).mp (htight link hlink),
      .inr ⟨outer, operator, rfl, ?_⟩⟩
    exact mt (hiff (operator, start) (by simp)).mpr hloose

/-- The operands of a chain in text order. -/
def operands (first : α) (links : List (α × α)) : List α := first :: links.map (·.2)

/-- From which operand on the chain is tight up to its end. -/
def IsRunStart (tight : α → Prop) (links : List (α × α)) : Nat → Prop :=
  IsLeast {j | j ≤ links.length ∧ ∀ link ∈ links.drop j, tight link.1}

theorem EndsWithRun.exists_isRunStart {tight : α → Prop} {first start : α}
    {links run : List (α × α)} (h : EndsWithRun tight first links start run) :
    ∃ j, IsRunStart tight links j ∧ (operands first links)[j]? = some start ∧ run = links.drop j := by
  obtain ⟨htight, ⟨rfl, rfl⟩ | ⟨outer, operator, rfl, hloose⟩⟩ := h
  · exact ⟨0, ⟨⟨Nat.zero_le _, htight⟩, fun _ _ => Nat.zero_le _⟩, rfl, rfl⟩
  · refine ⟨outer.length + 1, ⟨⟨by simp, ?_⟩, fun j hj => ?_⟩, by simp [operands], by simp⟩
    · simpa using htight
    · by_contra hlt
      -- a run that starts earlier would hold the operator in front of `start`
      refine hloose (hj.2 (operator, start) ?_)
      rw [List.drop_append_of_le_length (by omega)]
      exact List.mem_append_right _ List.mem_cons_self

/-- Where the level of an operator groups to the right, all operators on its left bind tighter, and
the one in front of them does not. -/
theorem IsResolved.leftOf? (h : t.IsResolved level groups) {front back : List (α × α)}
    (hlinks : t.links = front ++ (operator, e) :: back) (hgroups : groups (level operator) = .right) :
    ∃ left, t.leftOf? front.length = some left ∧
      EndsWithRun (level operator < level ·) t.first front left.first left.links := by
  induction h generalizing front back with
  | operand => simp [links] at hlinks
  | @binary left right top hleft hright hunderLeft hunderRight ihl ihr =>
    rw [links] at hlinks
    obtain ⟨rfl, htop, rfl⟩ | ⟨middle, rfl, hr⟩ | ⟨middle, hl, rfl⟩ := split_cases hlinks
    · obtain ⟨rfl, -⟩ := Prod.mk.inj htop
      refine ⟨left, by simp [Grouping.leftOf?], fun link hlink => ?_, .inl ⟨rfl, rfl⟩⟩
      obtain hlt | ⟨-, hside⟩ := hunderLeft link hlink
      · exact hlt
      · rw [hgroups] at hside
        cases hside
    · obtain ⟨inner, hinner, htight, hstop⟩ := ihr hr
      refine ⟨inner, ?_, htight, .inr ?_⟩
      · have hlength : (left.links ++ (top, right.first) :: middle).length -
            (left.links.length + 1) = middle.length := by
          simp only [List.length_append, List.length_cons]
          omega
        rw [Grouping.leftOf?, if_neg (by simp), if_neg (by simp), hlength, hinner]
      · obtain ⟨rfl, hfirst⟩ | ⟨outer, before, rfl, hbefore⟩ := hstop
        · have hunder := hunderRight (operator, e) (by simp [hr])
          refine ⟨left.links, top, by rw [hfirst], fun hlt => ?_⟩
          obtain hlt' | ⟨heq, -⟩ := hunder
          · exact Nat.lt_asymm hlt hlt'
          · exact Nat.ne_of_gt hlt heq
        · exact ⟨left.links ++ (top, right.first) :: outer, before, by simp, hbefore⟩
    · obtain ⟨inner, hinner, hends⟩ := ihl hl
      refine ⟨inner, ?_, hends⟩
      rw [Grouping.leftOf?, if_pos (by simp [hl]), hinner]

end Grouping

end ElmLint.Lint
