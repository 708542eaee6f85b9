import StackLowering.Tree
/-!
The instruction set of the target machine. An opcode is one byte, its operands
follow it. Values are stack cells, and `long` and `double` take two, so
discarding and duplicating come in a single and a double form.
-/

namespace StackLowering

inductive Opcode where
  | constant
  | constantWide
  | pushNull
  | pushTrue
  | pushFalse
  | pushZero
  | pushOne
  | pop
  | pop2
  | dup
  | dup2
  | swap
  | getLocal
  | setLocal
  | getLocalWide
  | setLocalWide
  | incLocal
  | getField
  | setField
  | getStatic
  | setStatic
  | getThis
  | addI32
  | subI32
  | mulI32
  | divI32
  | modI32
  | negI32
  | addI64
  | subI64
  | mulI64
  | divI64
  | modI64
  | negI64
  | addF32
  | subF32
  | mulF32
  | divF32
  | modF32
  | negF32
  | addF64
  | subF64
  | mulF64
  | divF64
  | modF64
  | negF64
  | andI32
  | orI32
  | xorI32
  | shlI32
  | shrI32
  | ushrI32
  | andI64
  | orI64
  | xorI64
  | shlI64
  | shrI64
  | ushrI64
  | eqI32
  | eqI64
  | eqF32
  | eqF64
  | ltI32
  | ltI64
  | ltF32
  | ltF64
  | leI32
  | leI64
  | leF32
  | leF64
  | gtI32
  | gtI64
  | gtF32
  | gtF64
  | geI32
  | geI64
  | geF32
  | geF64
  | eqRef
  | not
  | jump
  | jumpIfFalse
  | jumpIfTrue
  | tableSwitch
  | lookupSwitch
  | invokeStatic
  | invokeVirtual
  | invokeInterface
  | invokeSpecial
  | returnValue
  | returnVoid
  | create
  | newArray
  | arrayLength
  | arrayLoad
  | arrayStore
  | i32ToI64
  | i32ToF32
  | i32ToF64
  | i64ToI32
  | i64ToF32
  | i64ToF64
  | f32ToI32
  | f32ToI64
  | f32ToF64
  | f64ToI32
  | f64ToI64
  | f64ToF32
  | i32ToI8
  | i32ToI16
  | i32ToU16
  | cast
  | instanceOf
  | raise
  | monitorEnter
  | monitorExit
deriving DecidableEq, Repr

namespace Opcode

/-- All opcodes in the order of their byte values. -/
def all : List Opcode :=
  [constant, constantWide, pushNull, pushTrue, pushFalse, pushZero, pushOne, pop, pop2, dup, dup2,
   swap, getLocal, setLocal, getLocalWide, setLocalWide, incLocal, getField, setField, getStatic,
   setStatic, getThis, addI32, subI32, mulI32, divI32, modI32, negI32, addI64, subI64, mulI64,
   divI64, modI64, negI64, addF32, subF32, mulF32, divF32, modF32, negF32, addF64, subF64, mulF64,
   divF64, modF64, negF64, andI32, orI32, xorI32, shlI32, shrI32, ushrI32, andI64, orI64, xorI64,
   shlI64, shrI64, ushrI64, eqI32, eqI64, eqF32, eqF64, ltI32, ltI64, ltF32, ltF64, leI32, leI64,
   leF32, leF64, gtI32, gtI64, gtF32, gtF64, geI32, geI64, geF32, geF64, eqRef, not, jump,
   jumpIfFalse, jumpIfTrue, tableSwitch, lookupSwitch, invokeStatic, invokeVirtual,
   invokeInterface, invokeSpecial, returnValue, returnVoid, create, newArray, arrayLength,
   arrayLoad, arrayStore, i32ToI64, i32ToF32, i32ToF64, i64ToI32, i64ToF32, i64ToF64, f32ToI32,
   f32ToI64, f32ToF64, f64ToI32, f64ToI64, f64ToF32, i32ToI8, i32ToI16, i32ToU16, cast,
   instanceOf, raise, monitorEnter, monitorExit]

def toByte (op : Opcode) : UInt8 := UInt8.ofNat op.ctorIdx

def ofByte? (byte : UInt8) : Option Opcode := all[byte.toNat]?

def name : Opcode → String
  | constant => "CONSTANT"
  | constantWide => "CONSTANT_WIDE"
  | pushNull => "PUSH_NULL"
  | pushTrue => "PUSH_TRUE"
  | pushFalse => "PUSH_FALSE"
  | pushZero => "PUSH_ZERO"
  | pushOne => "PUSH_ONE"
  | pop => "POP"
  | pop2 => "POP_2"
  | dup => "DUP"
  | dup2 => "DUP_2"
  | swap => "SWAP"
  | getLocal => "GET_LOCAL"
  | setLocal => "SET_LOCAL"
  | getLocalWide => "GET_LOCAL_WIDE"
  | setLocalWide => "SET_LOCAL_WIDE"
  | incLocal => "INC_LOCAL"
  | getField => "GET_FIELD"
  | setField => "SET_FIELD"
  | getStatic => "GET_STATIC"
  | setStatic => "SET_STATIC"
  | getThis => "GET_THIS"
  | addI32 => "ADD_I32"
  | subI32 => "SUB_I32"
  | mulI32 => "MUL_I32"
  | divI32 => "DIV_I32"
  | modI32 => "MOD_I32"
  | negI32 => "NEG_I32"
  | addI64 => "ADD_I64"
  | subI64 => "SUB_I64"
  | mulI64 => "MUL_I64"
  | divI64 => "DIV_I64"
  | modI64 => "MOD_I64"
  | negI64 => "NEG_I64"
  | addF32 => "ADD_F32"
  | subF32 => "SUB_F32"
  | mulF32 => "MUL_F32"
  | divF32 => "DIV_F32"
  | modF32 => "MOD_F32"
  | negF32 => "NEG_F32"
  | addF64 => "ADD_F64"
  | subF64 => "SUB_F64"
  | mulF64 => "MUL_F64"
  | divF64 => "DIV_F64"
  | modF64 => "MOD_F64"
  | negF64 => "NEG_F64"
  | andI32 => "AND_I32"
  | orI32 => "OR_I32"
  | xorI32 => "XOR_I32"
  | shlI32 => "SHL_I32"
  | shrI32 => "SHR_I32"
  | ushrI32 => "USHR_I32"
  | andI64 => "AND_I64"
  | orI64 => "OR_I64"
  | xorI64 => "XOR_I64"
  | shlI64 => "SHL_I64"
  | shrI64 => "SHR_I64"
  | ushrI64 => "USHR_I64"
  | eqI32 => "EQ_I32"
  | eqI64 => "EQ_I64"
  | eqF32 => "EQ_F32"
  | eqF64 => "EQ_F64"
  | ltI32 => "LT_I32"
  | ltI64 => "LT_I64"
  | ltF32 => "LT_F32"
  | ltF64 => "LT_F64"
  | leI32 => "LE_I32"
  | leI64 => "LE_I64"
  | leF32 => "LE_F32"
  | leF64 => "LE_F64"
  | gtI32 => "GT_I32"
  | gtI64 => "GT_I64"
  | gtF32 => "GT_F32"
  | gtF64 => "GT_F64"
  | geI32 => "GE_I32"
  | geI64 => "GE_I64"
  | geF32 => "GE_F32"
  | geF64 => "GE_F64"
  | eqRef => "EQ_REF"
  | not => "NOT"
  | jump => "JUMP"
  | jumpIfFalse => "JUMP_IF_FALSE"
  | jumpIfTrue => "JUMP_IF_TRUE"
  | tableSwitch => "TABLE_SWITCH"
  | lookupSwitch => "LOOKUP_SWITCH"
  | invokeStatic => "INVOKE_STATIC"
  | invokeVirtual => "INVOKE_VIRTUAL"
  | invokeInterface => "INVOKE_INTERFACE"
  | invokeSpecial => "INVOKE_SPECIAL"
  | returnValue => "RETURN"
  | returnVoid => "RETURN_VOID"
  | create => "NEW"
  | newArray => "NEW_ARRAY"
  | arrayLength => "ARRAY_LENGTH"
  | arrayLoad => "ARRAY_LOAD"
  | arrayStore => "ARRAY_STORE"
  | i32ToI64 => "I32_TO_I64"
  | i32ToF32 => "I32_TO_F32"
  | i32ToF64 => "I32_TO_F64"
  | i64ToI32 => "I64_TO_I32"
  | i64ToF32 => "I64_TO_F32"
  | i64ToF64 => "I64_TO_F64"
  | f32ToI32 => "F32_TO_I32"
  | f32ToI64 => "F32_TO_I64"
  | f32ToF64 => "F32_TO_F64"
  | f64ToI32 => "F64_TO_I32"
  | f64ToI64 => "F64_TO_I64"
  | f64ToF32 => "F64_TO_F32"
  | i32ToI8 => "I32_TO_I8"
  | i32ToI16 => "I32_TO_I16"
  | i32ToU16 => "I32_TO_U16"
  | cast => "CAST"
  | instanceOf => "INSTANCE_OF"
  | raise => "THROW"
  | monitorEnter => "MONITOR_ENTER"
  | monitorExit => "MONITOR_EXIT"

def ofName? (name : String) : Option Opcode := all.find? (·.name == name)

/-- Dispatch on a key, with operands of varying length. -/
def isSwitch : Opcode → Bool
  | tableSwitch | lookupSwitch => true
  | _ => false

/-- The operand is an offset to jump to. -/
def isJump : Opcode → Bool
  | jump | jumpIfFalse | jumpIfTrue => true
  | _ => false

/-- Bytes of operands after the opcode, and 0 for switches, whose operands
vary in length. -/
def operandSize : Opcode → Nat
  | constant | getLocal | setLocal => 1
  | constantWide | getLocalWide | setLocalWide => 2
  | getField | setField | getStatic | setStatic | newArray | cast | instanceOf => 2
  | invokeStatic | invokeVirtual | invokeInterface | invokeSpecial => 3
  | incLocal | jump | jumpIfFalse | jumpIfTrue => 4
  | create => 5
  | _ => 0

def ofInvoke : InvokeKind → Opcode
  | .static => invokeStatic
  | .virtual => invokeVirtual
  | .interface => invokeInterface
  | .special => invokeSpecial

end Opcode

end StackLowering
