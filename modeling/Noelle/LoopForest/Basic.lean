import Noelle.LoopForest.LoopTree

/-!
# LoopForest.Basic

The loop forest as a mutable object: `LoopForest` with its `LoopTree` objects.

A `LoopTree *` is a number and the heap maps it to the object.  Every access to an
object that was never allocated or is already destroyed gives `none`, and so does a
failed assertion, so a result says that each object was destroyed at most once.
-/

namespace Noelle

/-- A `LoopTree` object. -/
structure LoopTreeNode (F B : Type) where
  loop : LoopStructure F B
  parent : Option Nat
  children : PtrSet Nat

/-- `LoopForest`, with the objects of its nodes. -/
structure LoopForest (F B : Type) where
  heap : Nat → Option (LoopTreeNode F B)
  nextNode : Nat
  nodes : AList fun _ : LoopStructure F B => Nat
  functionLoops : F → PtrSet (LoopStructure F B)
  headerLoops : AList fun _ : B => Nat
  trees : PtrSet Nat

namespace LoopForest

variable {F B : Type} [DecidableEq F] [DecidableEq B] (ord : IterOrder) (f : LoopForest F B)

/-! ## Objects -/

/-- Write an object. -/
def setNode (n : Nat) (c : LoopTreeNode F B) : LoopForest F B :=
  { f with heap := Function.update f.heap n (some c) }

def free (n : Nat) : LoopForest F B := { f with heap := Function.update f.heap n none }

def getNode (loop : LoopStructure F B) : Option Nat := f.headerLoops.lookup loop.getHeader

/-! ## Trees -/

def removeTree (tree : Nat) : Option (LoopForest F B) :=
  if tree ∈ f.trees then some { f with trees := f.trees.erase tree } else none

def addTree (tree : Nat) : Option (LoopForest F B) :=
  if tree ∈ f.trees then none else some { f with trees := f.trees.insert tree }

/-! ## Destruction -/

/-- The body of the loop over the children of an internal node. -/
def moveToParent (parent : Nat) (f : LoopForest F B) (child : Nat) : Option (LoopForest F B) := do
  let c ← f.heap child
  let f := f.setNode child { c with parent := some parent }
  let p ← f.heap parent
  return f.setNode parent { p with children := p.children.insert child }

/-- The body of the loop over the children of a root. -/
def promote (f : LoopForest F B) (child : Nat) : Option (LoopForest F B) := do
  let c ← f.heap child
  (f.setNode child { c with parent := none }).addTree child

/-- `delete`, with the destructor `LoopTree::~LoopTree`. -/
def deleteNode (n : Nat) : Option (LoopForest F B) := do
  let this ← f.heap n
  match this.parent with
  | some parent =>
      let p ← f.heap parent
      if n ∉ p.children then none
      else
        let f := f.setNode parent { p with children := p.children.erase n }
        let f ← (ord.visit this.children.elems).foldlM (moveToParent parent) f
        return f.free n
  | none =>
      let f ← f.removeTree n
      let f ← (ord.visit this.children.elems).foldlM promote f
      return f.free n

/-- `LoopForest::~LoopForest`. -/
def destroy : Option (LoopForest F B) :=
  (ord.visit (f.nodes.entries.map (·.2))).foldlM (deleteNode ord) f

/-! ## Visits -/

/-- The nodes that `LoopTree::visitPreOrder` meets if the function never stops the visit. -/
def visitPreOrder : Nat → Nat → Option (List Nat)
  | 0, _ => none
  | fuel + 1, n => do
      let this ← f.heap n
      let below ← (ord.visit this.children.elems).foldlM (fun met child => do
        return met ++ (← visitPreOrder fuel child)) []
      return n :: below

/-- `filter` on the loop of a node. -/
def isFiltered (filter : LoopStructure F B → Bool) (n : Nat) : Bool :=
  match f.heap n with
  | some this => filter this.loop
  | none => false

/-- `Noelle::filterOutLoops`. -/
def filterOutLoops (filter : LoopStructure F B → Bool) (fuel : Nat) : Option (LoopForest F B) := do
  let toDelete ← (ord.visit f.trees.elems).foldlM (fun toDelete tree => do
    return toDelete ++ (← f.visitPreOrder ord fuel tree).filter (f.isFiltered filter)) []
  toDelete.foldlM (deleteNode ord) f

end LoopForest

end Noelle
