import Mathlib.Data.List.Nodup
import Mathlib.Logic.Function.Basic

/-! # Linked lists in memory

Nodes are linked by pointers: each list has a cell with its first node, and each node a cell with the
next one. A cell leads to the nodes that are met on the way to null (`Trunk.Chain.Leads`). A node is
put in front of a list by two writes (`Trunk.Chain.Leads.push`), and taken out of one by a write to
the cell that points to it (`Trunk.Chain.Leads.unlink`), which is the cell of the node before it or
that of the list. A list whose cells are not written to stays as it is
(`Trunk.Chain.Leads.update`).
-/

namespace Trunk.Chain

variable {Head Node : Type*}

/-- A cell that holds a pointer: that of a list to its first node, or that of a node to the next. -/
inductive Cell (Head Node : Type*) where
  | head (list : Head)
  | next (node : Node)
  deriving DecidableEq

variable {links : Cell Head Node → Option Node} {cell other : Cell Head Node}
  {nodes before after : List Node} {node : Node}

/-- The nodes that a cell leads to. -/
def Leads (links : Cell Head Node → Option Node) : Cell Head Node → List Node → Prop
  | cell, [] => links cell = none
  | cell, node :: nodes => links cell = some node ∧ Leads links (.next node) nodes

/-- The cell that is behind nodes. -/
def behind (cell : Cell Head Node) : List Node → Cell Head Node
  | [] => cell
  | node :: nodes => behind (.next node) nodes

/-- No node of a list has the cell. -/
def Apart (cell : Cell Head Node) (nodes : List Node) : Prop := ∀ node ∈ nodes, cell ≠ .next node

theorem apart_head (list : Head) (nodes : List Node) : Apart (.head list) nodes := by
  intro node _ same
  cases same

theorem apart_next (absent : node ∉ nodes) : Apart (.next node : Cell Head Node) nodes := by
  intro other member same
  cases same
  exact absent member

/-- The cell behind nodes is the first one, or that of a node. -/
theorem behind_eq (cell : Cell Head Node) (nodes : List Node) :
    behind cell nodes = cell ∨ ∃ node ∈ nodes, behind cell nodes = .next node := by
  induction nodes generalizing cell with
  | nil => exact .inl rfl
  | cons node nodes ih =>
      right
      rcases ih (.next node) with same | ⟨last, member, same⟩
      · exact ⟨node, List.mem_cons_self, same⟩
      · exact ⟨last, List.mem_cons_of_mem _ member, same⟩

theorem Leads.behind (leads : Leads links cell (before ++ after)) :
    Leads links (behind cell before) after := by
  induction before generalizing cell with
  | nil => exact leads
  | cons node before ih => exact ih leads.2

variable [DecidableEq Head] [DecidableEq Node]

/-- A list is kept by a write to a cell that is not one of its own. -/
theorem Leads.update (leads : Leads links cell nodes) (differ : other ≠ cell)
    (apart : Apart other nodes) (value : Option Node) :
    Leads (Function.update links other value) cell nodes := by
  induction nodes generalizing cell with
  | nil =>
      rw [Leads, Function.update_of_ne differ.symm]
      exact leads
  | cons node nodes ih =>
      refine ⟨?_, ih leads.2 (apart node List.mem_cons_self) fun later member =>
        apart later (List.mem_cons_of_mem _ member)⟩
      rw [Function.update_of_ne differ.symm]
      exact leads.1

/-- A node is put in front. -/
theorem Leads.push (leads : Leads links cell nodes) (fresh : node ∉ nodes)
    (own : cell ≠ .next node) (apart : Apart cell nodes) :
    Leads (Function.update (Function.update links (.next node) (links cell)) cell (some node)) cell
      (node :: nodes) := by
  refine ⟨Function.update_self cell _ _, ?_⟩
  apply Leads.update _ own apart
  cases nodes with
  | nil =>
      rw [Leads, Function.update_self]
      exact leads
  | cons first nodes =>
      refine ⟨?_, leads.2.update ?_ (apart_next fun member =>
        fresh (List.mem_cons_of_mem _ member)) _⟩
      · rw [Function.update_self]
        exact leads.1
      · intro same
        cases same
        exact fresh List.mem_cons_self

/-- A node is taken out by a write to the cell that points to it. -/
theorem Leads.unlink (leads : Leads links cell (before ++ node :: after))
    (unique : (before ++ node :: after).Nodup) (apart : Apart cell (before ++ node :: after)) :
    Leads (Function.update links (Chain.behind cell before) (links (.next node))) cell
      (before ++ after) := by
  induction before generalizing cell with
  | nil =>
      rw [List.nil_append] at leads unique apart ⊢
      have rest := leads.2
      rw [Chain.behind]
      cases after with
      | nil =>
          rw [Leads, Function.update_self]
          exact rest
      | cons first after =>
          refine ⟨?_, rest.2.update ?_ ?_ _⟩
          · rw [Function.update_self]
            exact rest.1
          · exact apart first (List.mem_cons_of_mem _ List.mem_cons_self)
          · intro later member
            exact apart later (List.mem_cons_of_mem _ (List.mem_cons_of_mem _ member))
  | cons first before ih =>
      rw [List.cons_append, List.nodup_cons] at unique
      have differ : Chain.behind (.next first) before ≠ cell := by
        rcases behind_eq (.next first : Cell Head Node) before with same | ⟨last, member, same⟩
        · rw [same]
          exact (apart first List.mem_cons_self).symm
        · rw [same]
          exact (apart last (List.mem_cons_of_mem _ (List.mem_append_left _ member))).symm
      refine ⟨?_, ih leads.2 unique.2 (apart_next unique.1)⟩
      rw [Chain.behind, Function.update_of_ne differ.symm]
      exact leads.1

end Trunk.Chain
