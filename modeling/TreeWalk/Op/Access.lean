import TreeWalk.Op

/-!
# Scratch addresses an operation touches

`Op.reads` and `Op.writes` follow from the shape of an operation alone. The packer relies on
nothing else.
-/

namespace TreeWalk

def VectorOp.reads : VectorOp → List Addr
  | .broadcast _ src => [src]
  | .multiplyAdd _ a b c => a.block ++ b.block ++ c.block
  | .binary _ _ a b => a.block ++ b.block

def VectorOp.writes : VectorOp → List Addr
  | .broadcast dest _ => dest.block
  | .multiplyAdd dest _ _ _ => dest.block
  | .binary _ dest _ _ => dest.block

def LoadOp.reads : LoadOp → List Addr
  | .word _ addr => [addr]
  | .lane _ addr n => [addr.offset n.toNat]
  | .block _ addr => [addr]
  | .const _ _ => []

def LoadOp.writes : LoadOp → List Addr
  | .word dest _ => [dest]
  | .lane dest _ n => [dest.offset n.toNat]
  | .block dest _ => dest.block
  | .const dest _ => [dest]

def StoreOp.reads : StoreOp → List Addr
  | .word addr src => [addr, src]
  | .block addr src => addr :: src.block

def FlowOp.reads : FlowOp → List Addr
  | .select _ cond a b => [cond, a, b]
  | .addImm _ a _ => [a]
  | .blockSelect _ cond a b => cond.block ++ a.block ++ b.block
  | .trace src => [src]
  | .jumpIf cond _ => [cond]
  | .jumpByIf cond _ => [cond]
  | .jumpTo addr => [addr]
  | .halt | .pause | .jump _ | .coreId _ => []

def FlowOp.writes : FlowOp → List Addr
  | .select dest _ _ _ => [dest]
  | .addImm dest _ _ => [dest]
  | .blockSelect dest _ _ _ => dest.block
  | .coreId dest => [dest]
  | .halt | .pause | .trace _ | .jumpIf _ _ | .jumpByIf _ _ | .jump _ | .jumpTo _ => []

namespace Op

/-- The scratch addresses whose words the operation may use. -/
def reads : Op → List Addr
  | alu op => [op.a, op.b]
  | valu op => op.reads
  | load op => op.reads
  | store op => op.reads
  | flow op => op.reads
  | note _ => []

/-- The scratch addresses whose words the operation replaces. -/
def writes : Op → List Addr
  | alu op => [op.dest]
  | valu op => op.writes
  | load op => op.writes
  | store _ => []
  | flow op => op.writes
  | note _ => []

end Op

end TreeWalk
