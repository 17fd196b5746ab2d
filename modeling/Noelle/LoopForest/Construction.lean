import Noelle.DominatorForest
import Noelle.LoopForest.Basic

/-!
# LoopForest.Construction

The constructor `LoopForest::LoopForest`.

`fuel` bounds the depth of the recursion of `addChildrenToTree`, and `steps` the length
of a walk up the dominator tree.
-/

namespace Noelle

/-- The forest under construction and the local variable `potentialTrees`. -/
structure ForestConstruction (F B : Type) where
  forest : LoopForest F B
  potentialTrees : PtrSet Nat

namespace LoopForest

variable {F B : Type} [DecidableEq F] [DecidableEq B] (ord : IterOrder)

/-- A forest without nodes. -/
def empty : LoopForest F B where
  heap _ := none
  nextNode := 0
  nodes := ∅
  functionLoops _ := ∅
  headerLoops := ∅
  trees := ∅

/-- The body of the loop that allocates the nodes. -/
def addLoop (s : ForestConstruction F B) (l : LoopStructure F B) : ForestConstruction F B :=
  let n := s.forest.nextNode
  let f := s.forest
  let f : LoopForest F B :=
    { heap := Function.update f.heap n (some ⟨l, none, ∅⟩)
      nextNode := n + 1
      nodes := f.nodes.insert l n
      functionLoops :=
        Function.update f.functionLoops l.function ((f.functionLoops l.function).insert l)
      headerLoops := f.headerLoops.insert l.getHeader n
      trees := f.trees }
  if l.depth = 1 then { s with forest := { f with trees := f.trees.insert n } }
  else { forest := f, potentialTrees := s.potentialTrees.insert n }

/-- The walk up the dominator tree from the header of a loop: it finds another loop of the
forest that includes the header before it gets to the header of the root. -/
def findLoopInBetween (f : LoopForest F B) (DT : DominatorForest B)
    (loopHeaderDominatorNode : Option (DominatorNode B)) (functionLoopHeader : B) :
    Nat → Option (DominatorNode B) → Option Bool
  | 0, _ => none
  | steps + 1, subLoopDominatorNode =>
      if loopHeaderDominatorNode.map (·.getBlock) = subLoopDominatorNode.map (·.getBlock) then
        some false
      else
        match subLoopDominatorNode with
        | none => none
        | some node =>
            match f.headerLoops.lookup node.getBlock with
            | none => findLoopInBetween f DT loopHeaderDominatorNode functionLoopHeader steps
                (DT.getParent node)
            | some loopInBetween =>
                match f.heap loopInBetween with
                | none => none
                | some c =>
                    if c.loop.isIncluded functionLoopHeader then some true
                    else findLoopInBetween f DT loopHeaderDominatorNode functionLoopHeader steps
                      (DT.getParent node)

/-- Make the node `c` a child of `root`. -/
def addChild (f : LoopForest F B) (root c : Nat) : Option (LoopForest F B) := do
  let r ← f.heap root
  let f := f.setNode root { r with children := r.children.insert c }
  let this ← f.heap c
  return f.setNode c { this with parent := some root }

def addChildrenToTree (doms : F → Option (DominatorForest B)) (steps : Nat) :
    Nat → ForestConstruction F B → Nat → Option (ForestConstruction F B)
  | 0, _, _ => none
  | fuel + 1, s, root => do
      let l ← (s.forest.heap root).map (·.loop)
      let header := l.getHeader
      let func := l.function
      let ds ← doms func
      (ord.visit (s.forest.functionLoops func).elems).foldlM (fun s functionLoop => do
        let functionLoopHeader := functionLoop.getHeader
        if functionLoopHeader = header then return s
        else if !l.isIncluded functionLoopHeader then return s
        else
          let subLoopDominatorNode ← ds.getNode functionLoopHeader
          let foundLoopInBetween ← s.forest.findLoopInBetween ds (ds.getNode header)
            functionLoopHeader steps (ds.getParent subLoopDominatorNode)
          if foundLoopInBetween then return s
          else
            let c ← s.forest.nodes.lookup functionLoop
            let f ← s.forest.addChild root c
            addChildrenToTree doms steps fuel ⟨f, s.potentialTrees.erase c⟩ c) s

def construct (loops : List (LoopStructure F B)) (doms : F → Option (DominatorForest B))
    (steps fuel : Nat) : Option (LoopForest F B) := do
  let s := loops.foldl addLoop ⟨empty, ∅⟩
  let s ← (ord.visit s.forest.trees.elems).foldlM (addChildrenToTree ord doms steps fuel) s
  return { s.forest with
    trees := s.forest.trees.insertAll (ord.visit s.potentialTrees.elems) }

end LoopForest

end Noelle
