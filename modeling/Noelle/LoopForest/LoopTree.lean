import Noelle.Lib.Collections

/-!
# LoopForest.LoopTree

Loops and their nesting trees, as the analyses read them.

A pass that only asks which loops contain a block walks the tree in pre-order and
never follows parent pointers, so the tree is a value here.  The forest that owns
the nodes and changes them is another module's.
-/

namespace Noelle

/-- `LoopStructure`: the pointer and the members that loop trees use. -/
structure LoopStructure (F B : Type) where
  self : Nat
  function : F
  header : B
  depth : Nat
  bbs : PtrSet B
  deriving DecidableEq

/-- `LoopTree`.  The children stand in the order in which their set is visited. -/
inductive LoopTree (F B : Type) where
  | node (loop : LoopStructure F B) (children : List (LoopTree F B))

namespace LoopStructure

variable {F B : Type} [DecidableEq B]

def isIncluded (l : LoopStructure F B) (bb : B) : Bool := decide (bb ∈ l.bbs)

def getHeader (l : LoopStructure F B) : B := l.header

end LoopStructure

namespace LoopTree

variable {F B : Type}

def getLoop : LoopTree F B → LoopStructure F B
  | node loop _ => loop

mutual

/-- The loops that `LoopTree::visitPreOrder` meets, with their levels. -/
def preOrder (treeLevel : Nat) : LoopTree F B → List (LoopStructure F B × Nat)
  | node loop children => (loop, treeLevel) :: preOrderAll (treeLevel + 1) children

/-- The loops below a list of children. -/
def preOrderAll (treeLevel : Nat) : List (LoopTree F B) → List (LoopStructure F B × Nat)
  | [] => []
  | child :: children => preOrder treeLevel child ++ preOrderAll treeLevel children

end

/-- `LoopTree::getLoops`. -/
def getLoops [DecidableEq F] [DecidableEq B] (t : LoopTree F B) : PtrSet (LoopStructure F B) :=
  PtrSet.ofList ((t.preOrder 1).map (·.1))

/-- `LoopTree::getInnermostLoopThatContains`, with the level of the loop found so far.  The
assertion that the levels differ is left out: it is part of `LoopTreeNode.keepBetter`, the same
visit of a forest, and never fails in one that is well nested
(`LoopTreeNode.getInnermostLoopThatContainsBlock_spec`). -/
def getInnermostLoopThatContains [DecidableEq B] (t : LoopTree F B) (bb : B) :
    Option (LoopStructure F B) :=
  if !t.getLoop.isIncluded bb then none
  else
    ((t.preOrder 1).foldl (fun innerLoop (nl, treeLevel) =>
      if !nl.isIncluded bb then innerLoop
      else
        match innerLoop with
        | none => some (nl, treeLevel)
        | some (_, innerLoopLevel) =>
            if innerLoopLevel < treeLevel then some (nl, treeLevel) else innerLoop) none).map (·.1)

theorem isIncluded_of_getInnermost [DecidableEq B] {t : LoopTree F B} {bb : B}
    {l : LoopStructure F B} (h : t.getInnermostLoopThatContains bb = some l) :
    t.getLoop.isIncluded bb = true := by
  unfold getInnermostLoopThatContains at h
  cases hin : t.getLoop.isIncluded bb with
  | true => rfl
  | false => simp [hin] at h

end LoopTree

end Noelle
