import ElmLint.Syntax.Tree

/-!
# Building trees

A tree is built by calls: a token is added, a node is started, the innermost open node is finished.
A checkpoint marks a place between the parts that are there, and a node can be started at a
checkpoint after the fact, as long as the place is still there and inside the innermost open node.
A call that comes at a time when it must not has no effect but to be remembered.
-/

namespace ElmLint.Syntax

/-- A node that was started and not finished: its kind, and the number of parts in front of it. -/
structure OpenNode where
  kind : Kind
  start : Nat
  deriving DecidableEq, Repr

structure Builder where
  /-- The parts that are in no finished node, the last first. -/
  parts : List Tree
  /-- The open nodes, the innermost first. -/
  opened : List OpenNode
  /-- A call has come at a time when it must not. -/
  isMisused : Bool
  /-- An open node starts inside the one around it, and no later than where the parts end. -/
  nested : (parts.length :: opened.map (·.start)).Pairwise (· ≥ ·)

namespace Builder

/-- Nothing is built yet. -/
def empty : Builder := ⟨[], [], false, .cons nofun .nil⟩

instance : Inhabited Builder := ⟨empty⟩

def misuse (b : Builder) : Builder := { b with isMisused := true }

theorem start_le (b : Builder) : ∀ start ∈ b.opened.map (·.start), start ≤ b.parts.length :=
  (List.pairwise_cons.mp b.nested).1

theorem nested_opened (b : Builder) : (b.opened.map (·.start)).Pairwise (· ≥ ·) :=
  (List.pairwise_cons.mp b.nested).2

def token (kind : Kind) (text : String) (b : Builder) : Builder :=
  { b with
    parts := .token kind text :: b.parts
    nested := .cons (fun start h => Nat.le_succ_of_le (b.start_le start h)) b.nested_opened }

def startNode (kind : Kind) (b : Builder) : Builder :=
  { b with
    opened := ⟨kind, b.parts.length⟩ :: b.opened
    nested := .cons
      (List.forall_mem_cons.mpr ⟨Nat.le_refl _, b.start_le⟩) b.nested }

/-- The place behind all parts. -/
def checkpoint (b : Builder) : Nat := b.parts.length

/-- A node can be started at the checkpoint. -/
def accepts (b : Builder) (checkpoint : Nat) : Prop :=
  checkpoint ≤ b.parts.length ∧ ∀ node ∈ b.opened.head?, node.start ≤ checkpoint

instance (b : Builder) (checkpoint : Nat) : Decidable (b.accepts checkpoint) :=
  inferInstanceAs (Decidable (_ ∧ _))

theorem nested_of_accepts {b : Builder} {checkpoint : Nat} (h : b.accepts checkpoint) :
    (b.parts.length :: checkpoint :: b.opened.map (·.start)).Pairwise (· ≥ ·) := by
  obtain ⟨parts, opened, isMisused, nested⟩ := b
  have hinner : (checkpoint :: opened.map (·.start)).Pairwise (· ≥ ·) := by
    cases opened with
    | nil => exact .cons nofun .nil
    | cons node opened =>
      have hnode : node.start ≤ checkpoint := h.2 node rfl
      have hrest := (List.pairwise_cons.mp nested).2
      refine .cons (fun start hs => ?_) hrest
      obtain rfl | hs := List.mem_cons.mp hs
      · exact hnode
      · exact Nat.le_trans ((List.pairwise_cons.mp hrest).1 start hs) hnode
  refine .cons (fun start hs => ?_) hinner
  obtain rfl | hs := List.mem_cons.mp hs
  · exact h.1
  · exact (List.pairwise_cons.mp nested).1 start hs

/-- Starts a node over all parts since the checkpoint and those to come. -/
def startNodeAt (checkpoint : Nat) (kind : Kind) (b : Builder) : Builder :=
  if h : b.accepts checkpoint then
    { b with opened := ⟨kind, checkpoint⟩ :: b.opened, nested := nested_of_accepts h }
  else b.misuse

theorem nested_finish {b : Builder} {node : OpenNode} {opened : List OpenNode}
    (h : b.opened = node :: opened) (tree : Tree) :
    ((tree :: b.parts.drop (b.parts.length - node.start)).length ::
      opened.map (·.start)).Pairwise (· ≥ ·) := by
  have hnested := b.nested_opened
  rw [h] at hnested
  refine .cons (fun start hs => ?_) (List.pairwise_cons.mp hnested).2
  have hle : start ≤ node.start := (List.pairwise_cons.mp hnested).1 start hs
  have hnode : node.start ≤ b.parts.length := b.start_le node.start (by simp [h])
  simp only [List.length_cons, List.length_drop, ge_iff_le]
  omega

/-- Finishes the innermost open node. -/
def finishNode (b : Builder) : Builder :=
  match h : b.opened with
  | [] => b.misuse
  | node :: opened =>
    { b with
      parts := .node node.kind (b.parts.take (b.parts.length - node.start)).reverse ::
        b.parts.drop (b.parts.length - node.start)
      opened := opened
      nested := nested_finish h _ }

/-- The tree, when it is complete: one node and nothing beside it. -/
def root? (b : Builder) : Option Tree :=
  match b.parts with
  | [.node kind children] => some (.node kind children)
  | _ => none

end Builder

end ElmLint.Syntax
