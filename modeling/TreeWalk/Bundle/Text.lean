import TreeWalk.Bundle

/-!
# Written form of operations and bundles

An operation is its mnemonic, then the operands separated by a comma and a blank. An address is
written `s` and its number, an address that is looked up in memory stands in brackets, and a bundle
index follows `@`. A bundle has braces around the engines that issue something; per engine its name
and its operations in brackets.
-/

namespace TreeWalk

/-- Operands one after the other. -/
def operands (texts : List String) : String := ", ".intercalate texts

/-- A number with its sign, also when it is not negative. -/
def signedText (n : Int) : String :=
  if n < 0 then "-" ++ toString n.natAbs else "+" ++ toString n.natAbs

def Addr.bracketed (a : Addr) : String := "[" ++ a.text ++ "]"

def wordText (w : Word) : String := toString w.toNat

def ScalarOp.text (op : ScalarOp) : String :=
  op.code.symbol ++ " " ++ operands [op.dest.text, op.a.text, op.b.text]

def VectorOp.text : VectorOp → String
  | .broadcast dest src => "vbroadcast " ++ operands [dest.text, src.text]
  | .multiplyAdd dest a b c => "multiply_add " ++ operands [dest.text, a.text, b.text, c.text]
  | .binary code dest a b => "v" ++ code.symbol ++ " " ++ operands [dest.text, a.text, b.text]

def LoadOp.text : LoadOp → String
  | .word dest addr => "load " ++ operands [dest.text, addr.bracketed]
  | .lane dest addr n => "load_offset " ++ operands [dest.text, addr.bracketed, wordText n]
  | .block dest addr => "vload " ++ operands [dest.text, addr.bracketed]
  | .const dest value => "const " ++ operands [dest.text, wordText value]

def StoreOp.text : StoreOp → String
  | .word addr src => "store " ++ operands [addr.bracketed, src.text]
  | .block addr src => "vstore " ++ operands [addr.bracketed, src.text]

def FlowOp.text : FlowOp → String
  | .select dest cond a b => "select " ++ operands [dest.text, cond.text, a.text, b.text]
  | .addImm dest a imm => "add_imm " ++ operands [dest.text, a.text, wordText imm]
  | .blockSelect dest cond a b => "vselect " ++ operands [dest.text, cond.text, a.text, b.text]
  | .halt => "halt"
  | .pause => "pause"
  | .trace src => "trace_write " ++ src.text
  | .jumpIf cond target => "cond_jump " ++ operands [cond.text, "@" ++ wordText target]
  | .jumpByIf cond distance =>
    "cond_jump_rel " ++ operands [cond.text, signedText distance.toInt]
  | .jump target => "jump @" ++ wordText target
  | .jumpTo addr => "jump_indirect " ++ addr.text
  | .coreId dest => "coreid " ++ dest.text

def Op.text : Op → String
  | .alu op => op.text
  | .valu op => op.text
  | .load op => op.text
  | .store op => op.text
  | .flow op => op.text
  | .note text => "# " ++ text

/-- The ops of one engine: `load: [const s0, 1, halt]`. -/
def engineText (e : Engine) (ops : List Op) : String :=
  e.name ++ ": [" ++ ", ".intercalate (ops.map Op.text) ++ "]"

/-- The texts of the engines that issue something. -/
def Bundle.engineTexts (b : Bundle) : List String :=
  Engine.all.filterMap fun e =>
    let ops := b.on e
    if ops.isEmpty then none else some (engineText e ops)

def Bundle.text (b : Bundle) : String :=
  "\x7b" ++ "; ".intercalate b.engineTexts ++ "\x7d"

end TreeWalk
