/-!
Operation codes of compiled scripts. A code byte from `0x40` on also tells the width of its operand;
the operation is the same for all widths.
-/
namespace Shockwave

inductive Opcode where
  | ret
  | retFactory
  | pushZero
  | mul
  | add
  | sub
  | div
  | mod
  | inv
  | joinStr
  | joinPadStr
  | lt
  | ltEq
  | ntEq
  | eq
  | gt
  | gtEq
  | and
  | or
  | not
  | containsStr
  | contains0Str
  | getChunk
  | hiliteChunk
  | ontoSpr
  | intoSpr
  | getField
  | startTell
  | endTell
  | pushList
  | pushPropList
  | swap
  | callJavaScript
  | pushInt8
  | pushArgListNoRet
  | pushArgList
  | pushCons
  | pushSymb
  | pushVarRef
  | getGlobal2
  | getGlobal
  | getProp
  | getParam
  | getLocal
  | setGlobal2
  | setGlobal
  | setProp
  | setParam
  | setLocal
  | jmp
  | endRepeat
  | jmpIfZ
  | localCall
  | extCall
  | objCallV4
  | put
  | putChunk
  | deleteChunk
  | get
  | set
  | getMovieProp
  | setMovieProp
  | getObjProp
  | setObjProp
  | tellCall
  | peek
  | pop
  | theBuiltin
  | objCall
  | pushChunkVarRef
  | pushInt16
  | pushInt32
  | getChainedProp
  | pushFloat32
  | getTopLevelProp
  | newObj
  deriving DecidableEq, Repr

namespace Opcode

/-- The byte of an operation, with a one-byte operand if it takes one. -/
def code : Opcode → UInt8
  | .ret => 0x01
  | .retFactory => 0x02
  | .pushZero => 0x03
  | .mul => 0x04
  | .add => 0x05
  | .sub => 0x06
  | .div => 0x07
  | .mod => 0x08
  | .inv => 0x09
  | .joinStr => 0x0A
  | .joinPadStr => 0x0B
  | .lt => 0x0C
  | .ltEq => 0x0D
  | .ntEq => 0x0E
  | .eq => 0x0F
  | .gt => 0x10
  | .gtEq => 0x11
  | .and => 0x12
  | .or => 0x13
  | .not => 0x14
  | .containsStr => 0x15
  | .contains0Str => 0x16
  | .getChunk => 0x17
  | .hiliteChunk => 0x18
  | .ontoSpr => 0x19
  | .intoSpr => 0x1A
  | .getField => 0x1B
  | .startTell => 0x1C
  | .endTell => 0x1D
  | .pushList => 0x1E
  | .pushPropList => 0x1F
  | .swap => 0x21
  | .callJavaScript => 0x26
  | .pushInt8 => 0x41
  | .pushArgListNoRet => 0x42
  | .pushArgList => 0x43
  | .pushCons => 0x44
  | .pushSymb => 0x45
  | .pushVarRef => 0x46
  | .getGlobal2 => 0x48
  | .getGlobal => 0x49
  | .getProp => 0x4A
  | .getParam => 0x4B
  | .getLocal => 0x4C
  | .setGlobal2 => 0x4E
  | .setGlobal => 0x4F
  | .setProp => 0x50
  | .setParam => 0x51
  | .setLocal => 0x52
  | .jmp => 0x53
  | .endRepeat => 0x54
  | .jmpIfZ => 0x55
  | .localCall => 0x56
  | .extCall => 0x57
  | .objCallV4 => 0x58
  | .put => 0x59
  | .putChunk => 0x5A
  | .deleteChunk => 0x5B
  | .get => 0x5C
  | .set => 0x5D
  | .getMovieProp => 0x5F
  | .setMovieProp => 0x60
  | .getObjProp => 0x61
  | .setObjProp => 0x62
  | .tellCall => 0x63
  | .peek => 0x64
  | .pop => 0x65
  | .theBuiltin => 0x66
  | .objCall => 0x67
  | .pushChunkVarRef => 0x6D
  | .pushInt16 => 0x6E
  | .pushInt32 => 0x6F
  | .getChainedProp => 0x70
  | .pushFloat32 => 0x71
  | .getTopLevelProp => 0x72
  | .newObj => 0x73

def mnemonic : Opcode → String
  | .ret => "Ret"
  | .retFactory => "RetFactory"
  | .pushZero => "PushZero"
  | .mul => "Mul"
  | .add => "Add"
  | .sub => "Sub"
  | .div => "Div"
  | .mod => "Mod"
  | .inv => "Inv"
  | .joinStr => "JoinStr"
  | .joinPadStr => "JoinPadStr"
  | .lt => "Lt"
  | .ltEq => "LtEq"
  | .ntEq => "NtEq"
  | .eq => "Eq"
  | .gt => "Gt"
  | .gtEq => "GtEq"
  | .and => "And"
  | .or => "Or"
  | .not => "Not"
  | .containsStr => "ContainsStr"
  | .contains0Str => "Contains0Str"
  | .getChunk => "GetChunk"
  | .hiliteChunk => "HiliteChunk"
  | .ontoSpr => "OntoSpr"
  | .intoSpr => "IntoSpr"
  | .getField => "GetField"
  | .startTell => "StartTell"
  | .endTell => "EndTell"
  | .pushList => "PushList"
  | .pushPropList => "PushPropList"
  | .swap => "Swap"
  | .callJavaScript => "CallJavaScript"
  | .pushInt8 => "PushInt8"
  | .pushArgListNoRet => "PushArgListNoRet"
  | .pushArgList => "PushArgList"
  | .pushCons => "PushCons"
  | .pushSymb => "PushSymb"
  | .pushVarRef => "PushVarRef"
  | .getGlobal2 => "GetGlobal2"
  | .getGlobal => "GetGlobal"
  | .getProp => "GetProp"
  | .getParam => "GetParam"
  | .getLocal => "GetLocal"
  | .setGlobal2 => "SetGlobal2"
  | .setGlobal => "SetGlobal"
  | .setProp => "SetProp"
  | .setParam => "SetParam"
  | .setLocal => "SetLocal"
  | .jmp => "Jmp"
  | .endRepeat => "EndRepeat"
  | .jmpIfZ => "JmpIfZ"
  | .localCall => "LocalCall"
  | .extCall => "ExtCall"
  | .objCallV4 => "ObjCallV4"
  | .put => "Put"
  | .putChunk => "PutChunk"
  | .deleteChunk => "DeleteChunk"
  | .get => "Get"
  | .set => "Set"
  | .getMovieProp => "GetMovieProp"
  | .setMovieProp => "SetMovieProp"
  | .getObjProp => "GetObjProp"
  | .setObjProp => "SetObjProp"
  | .tellCall => "TellCall"
  | .peek => "Peek"
  | .pop => "Pop"
  | .theBuiltin => "TheBuiltin"
  | .objCall => "ObjCall"
  | .pushChunkVarRef => "PushChunkVarRef"
  | .pushInt16 => "PushInt16"
  | .pushInt32 => "PushInt32"
  | .getChainedProp => "GetChainedProp"
  | .pushFloat32 => "PushFloat32"
  | .getTopLevelProp => "GetTopLevelProp"
  | .newObj => "NewObj"

def all : List Opcode :=
  [.ret, .retFactory, .pushZero, .mul, .add, .sub, .div, .mod, .inv, .joinStr, .joinPadStr,
   .lt, .ltEq, .ntEq, .eq, .gt, .gtEq, .and, .or, .not, .containsStr, .contains0Str, .getChunk,
   .hiliteChunk, .ontoSpr, .intoSpr, .getField, .startTell, .endTell, .pushList, .pushPropList,
   .swap, .callJavaScript, .pushInt8, .pushArgListNoRet, .pushArgList, .pushCons, .pushSymb,
   .pushVarRef, .getGlobal2, .getGlobal, .getProp, .getParam, .getLocal, .setGlobal2,
   .setGlobal, .setProp, .setParam, .setLocal, .jmp, .endRepeat, .jmpIfZ, .localCall, .extCall,
   .objCallV4, .put, .putChunk, .deleteChunk, .get, .set, .getMovieProp, .setMovieProp,
   .getObjProp, .setObjProp, .tellCall, .peek, .pop, .theBuiltin, .objCall, .pushChunkVarRef,
   .pushInt16, .pushInt32, .getChainedProp, .pushFloat32, .getTopLevelProp, .newObj]

/-- The byte without its operand width. -/
def normalize (byte : UInt8) : UInt8 :=
  if 0x40 ≤ byte then 0x40 + byte % 0x40 else byte

/-- The operation of a code byte, if one is assigned. -/
def ofByte? (byte : UInt8) : Option Opcode :=
  all.find? (·.code == normalize byte)

/-- Sign of an operation on two values. -/
def binarySign? : Opcode → Option String
  | .mul => some "*"
  | .add => some "+"
  | .sub => some "-"
  | .div => some "/"
  | .mod => some "mod"
  | .joinStr => some "&"
  | .joinPadStr => some "&&"
  | .lt => some "<"
  | .ltEq => some "<="
  | .ntEq => some "<>"
  | .eq => some "="
  | .gt => some ">"
  | .gtEq => some ">="
  | .and => some "and"
  | .or => some "or"
  | .containsStr => some "contains"
  | .contains0Str => some "starts"
  | _ => none

/-- Sign of an operation on one value, with the space that a word needs. -/
def unarySign? : Opcode → Option String
  | .inv => some "-"
  | .not => some "not "
  | _ => none

/-- Level of an operation on two values; the lower binds tighter. Joining and string tests have no
level and never stand next to another sign without parentheses. -/
def level? : Opcode → Option Nat
  | .mul | .div | .mod => some 1
  | .add | .sub => some 2
  | .lt | .ltEq | .ntEq | .eq | .gt | .gtEq => some 3
  | .and => some 4
  | .or => some 5
  | _ => none

def isBinary (op : Opcode) : Bool := op.binarySign?.isSome

theorem ofByte?_code (op : Opcode) : ofByte? op.code = some op := by
  cases op <;> decide

end Opcode
end Shockwave
