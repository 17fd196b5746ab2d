/-!
# IR

What passes over dependence graphs ask about the values of a program.

A value is a pointer; its class and its operands are fixed while a graph over it
is transformed.
-/

namespace Noelle

/-- The classes of `Value` that are told apart. -/
inductive ValueKind (V : Type) where
  | phiNode (incomingValues : List V)
  | getElementPtrInst
  | castInst
  | cmpInst
  | terminator
  | otherInstruction
  | noInstruction

/-- The program that the values belong to.  Only instructions have a parent block. -/
structure IR (V B : Type) where
  kind : V → ValueKind V
  getParent : V → B

namespace IR

variable {V B : Type} (ir : IR V B)

/-- `isa<Instruction>`. -/
def isInstruction (v : V) : Bool :=
  match ir.kind v with
  | .noInstruction => false
  | _ => true

/-- `isa<PHINode>`. -/
def isPHINode (v : V) : Bool :=
  match ir.kind v with
  | .phiNode _ => true
  | _ => false

/-- `isa<GetElementPtrInst>`. -/
def isGetElementPtrInst (v : V) : Bool :=
  match ir.kind v with
  | .getElementPtrInst => true
  | _ => false

/-- `isa<CastInst>`. -/
def isCastInst (v : V) : Bool :=
  match ir.kind v with
  | .castInst => true
  | _ => false

/-- `isa<CmpInst>`. -/
def isCmpInst (v : V) : Bool :=
  match ir.kind v with
  | .cmpInst => true
  | _ => false

/-- `Instruction::isTerminator`. -/
def isTerminator (v : V) : Bool :=
  match ir.kind v with
  | .terminator => true
  | _ => false

end IR

end Noelle
