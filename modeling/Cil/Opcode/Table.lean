import Cil.Opcode.Basic

/-! The table of defined opcodes and the ways to look one up. -/
namespace Cil.Opcode

/-- The one-byte opcodes, by ascending value. -/
def oneByte : List Opcode :=
  [ ⟨"nop", 0x00, .none, .next⟩,
    ⟨"break", 0x01, .none, .breakpoint⟩,
    ⟨"ldarg.0", 0x02, .none, .next⟩,
    ⟨"ldarg.1", 0x03, .none, .next⟩,
    ⟨"ldarg.2", 0x04, .none, .next⟩,
    ⟨"ldarg.3", 0x05, .none, .next⟩,
    ⟨"ldloc.0", 0x06, .none, .next⟩,
    ⟨"ldloc.1", 0x07, .none, .next⟩,
    ⟨"ldloc.2", 0x08, .none, .next⟩,
    ⟨"ldloc.3", 0x09, .none, .next⟩,
    ⟨"stloc.0", 0x0A, .none, .next⟩,
    ⟨"stloc.1", 0x0B, .none, .next⟩,
    ⟨"stloc.2", 0x0C, .none, .next⟩,
    ⟨"stloc.3", 0x0D, .none, .next⟩,
    ⟨"ldarg.s", 0x0E, .uint8, .next⟩,
    ⟨"ldarga.s", 0x0F, .uint8, .next⟩,
    ⟨"starg.s", 0x10, .uint8, .next⟩,
    ⟨"ldloc.s", 0x11, .uint8, .next⟩,
    ⟨"ldloca.s", 0x12, .uint8, .next⟩,
    ⟨"stloc.s", 0x13, .uint8, .next⟩,
    ⟨"ldnull", 0x14, .none, .next⟩,
    ⟨"ldc.i4.m1", 0x15, .none, .next⟩,
    ⟨"ldc.i4.0", 0x16, .none, .next⟩,
    ⟨"ldc.i4.1", 0x17, .none, .next⟩,
    ⟨"ldc.i4.2", 0x18, .none, .next⟩,
    ⟨"ldc.i4.3", 0x19, .none, .next⟩,
    ⟨"ldc.i4.4", 0x1A, .none, .next⟩,
    ⟨"ldc.i4.5", 0x1B, .none, .next⟩,
    ⟨"ldc.i4.6", 0x1C, .none, .next⟩,
    ⟨"ldc.i4.7", 0x1D, .none, .next⟩,
    ⟨"ldc.i4.8", 0x1E, .none, .next⟩,
    ⟨"ldc.i4.s", 0x1F, .int8, .next⟩,
    ⟨"ldc.i4", 0x20, .int32, .next⟩,
    ⟨"ldc.i8", 0x21, .int64, .next⟩,
    ⟨"ldc.r4", 0x22, .float32, .next⟩,
    ⟨"ldc.r8", 0x23, .float64, .next⟩,
    ⟨"dup", 0x25, .none, .next⟩,
    ⟨"pop", 0x26, .none, .next⟩,
    ⟨"jmp", 0x27, .method, .call⟩,
    ⟨"call", 0x28, .method, .call⟩,
    ⟨"calli", 0x29, .signature, .call⟩,
    ⟨"ret", 0x2A, .none, .returns⟩,
    ⟨"br.s", 0x2B, .shortBranch, .branch⟩,
    ⟨"brfalse.s", 0x2C, .shortBranch, .conditional⟩,
    ⟨"brtrue.s", 0x2D, .shortBranch, .conditional⟩,
    ⟨"beq.s", 0x2E, .shortBranch, .conditional⟩,
    ⟨"bge.s", 0x2F, .shortBranch, .conditional⟩,
    ⟨"bgt.s", 0x30, .shortBranch, .conditional⟩,
    ⟨"ble.s", 0x31, .shortBranch, .conditional⟩,
    ⟨"blt.s", 0x32, .shortBranch, .conditional⟩,
    ⟨"bne.un.s", 0x33, .shortBranch, .conditional⟩,
    ⟨"bge.un.s", 0x34, .shortBranch, .conditional⟩,
    ⟨"bgt.un.s", 0x35, .shortBranch, .conditional⟩,
    ⟨"ble.un.s", 0x36, .shortBranch, .conditional⟩,
    ⟨"blt.un.s", 0x37, .shortBranch, .conditional⟩,
    ⟨"br", 0x38, .longBranch, .branch⟩,
    ⟨"brfalse", 0x39, .longBranch, .conditional⟩,
    ⟨"brtrue", 0x3A, .longBranch, .conditional⟩,
    ⟨"beq", 0x3B, .longBranch, .conditional⟩,
    ⟨"bge", 0x3C, .longBranch, .conditional⟩,
    ⟨"bgt", 0x3D, .longBranch, .conditional⟩,
    ⟨"ble", 0x3E, .longBranch, .conditional⟩,
    ⟨"blt", 0x3F, .longBranch, .conditional⟩,
    ⟨"bne.un", 0x40, .longBranch, .conditional⟩,
    ⟨"bge.un", 0x41, .longBranch, .conditional⟩,
    ⟨"bgt.un", 0x42, .longBranch, .conditional⟩,
    ⟨"ble.un", 0x43, .longBranch, .conditional⟩,
    ⟨"blt.un", 0x44, .longBranch, .conditional⟩,
    ⟨"switch", 0x45, .switch, .conditional⟩,
    ⟨"ldind.i1", 0x46, .none, .next⟩,
    ⟨"ldind.u1", 0x47, .none, .next⟩,
    ⟨"ldind.i2", 0x48, .none, .next⟩,
    ⟨"ldind.u2", 0x49, .none, .next⟩,
    ⟨"ldind.i4", 0x4A, .none, .next⟩,
    ⟨"ldind.u4", 0x4B, .none, .next⟩,
    ⟨"ldind.i8", 0x4C, .none, .next⟩,
    ⟨"ldind.i", 0x4D, .none, .next⟩,
    ⟨"ldind.r4", 0x4E, .none, .next⟩,
    ⟨"ldind.r8", 0x4F, .none, .next⟩,
    ⟨"ldind.ref", 0x50, .none, .next⟩,
    ⟨"stind.ref", 0x51, .none, .next⟩,
    ⟨"stind.i1", 0x52, .none, .next⟩,
    ⟨"stind.i2", 0x53, .none, .next⟩,
    ⟨"stind.i4", 0x54, .none, .next⟩,
    ⟨"stind.i8", 0x55, .none, .next⟩,
    ⟨"stind.r4", 0x56, .none, .next⟩,
    ⟨"stind.r8", 0x57, .none, .next⟩,
    ⟨"add", 0x58, .none, .next⟩,
    ⟨"sub", 0x59, .none, .next⟩,
    ⟨"mul", 0x5A, .none, .next⟩,
    ⟨"div", 0x5B, .none, .next⟩,
    ⟨"div.un", 0x5C, .none, .next⟩,
    ⟨"rem", 0x5D, .none, .next⟩,
    ⟨"rem.un", 0x5E, .none, .next⟩,
    ⟨"and", 0x5F, .none, .next⟩,
    ⟨"or", 0x60, .none, .next⟩,
    ⟨"xor", 0x61, .none, .next⟩,
    ⟨"shl", 0x62, .none, .next⟩,
    ⟨"shr", 0x63, .none, .next⟩,
    ⟨"shr.un", 0x64, .none, .next⟩,
    ⟨"neg", 0x65, .none, .next⟩,
    ⟨"not", 0x66, .none, .next⟩,
    ⟨"conv.i1", 0x67, .none, .next⟩,
    ⟨"conv.i2", 0x68, .none, .next⟩,
    ⟨"conv.i4", 0x69, .none, .next⟩,
    ⟨"conv.i8", 0x6A, .none, .next⟩,
    ⟨"conv.r4", 0x6B, .none, .next⟩,
    ⟨"conv.r8", 0x6C, .none, .next⟩,
    ⟨"conv.u4", 0x6D, .none, .next⟩,
    ⟨"conv.u8", 0x6E, .none, .next⟩,
    ⟨"callvirt", 0x6F, .method, .call⟩,
    ⟨"cpobj", 0x70, .type, .next⟩,
    ⟨"ldobj", 0x71, .type, .next⟩,
    ⟨"ldstr", 0x72, .string, .next⟩,
    ⟨"newobj", 0x73, .method, .call⟩,
    ⟨"castclass", 0x74, .type, .next⟩,
    ⟨"isinst", 0x75, .type, .next⟩,
    ⟨"conv.r.un", 0x76, .none, .next⟩,
    ⟨"unbox", 0x79, .type, .next⟩,
    ⟨"throw", 0x7A, .none, .throws⟩,
    ⟨"ldfld", 0x7B, .field, .next⟩,
    ⟨"ldflda", 0x7C, .field, .next⟩,
    ⟨"stfld", 0x7D, .field, .next⟩,
    ⟨"ldsfld", 0x7E, .field, .next⟩,
    ⟨"ldsflda", 0x7F, .field, .next⟩,
    ⟨"stsfld", 0x80, .field, .next⟩,
    ⟨"stobj", 0x81, .type, .next⟩,
    ⟨"conv.ovf.i1.un", 0x82, .none, .next⟩,
    ⟨"conv.ovf.i2.un", 0x83, .none, .next⟩,
    ⟨"conv.ovf.i4.un", 0x84, .none, .next⟩,
    ⟨"conv.ovf.i8.un", 0x85, .none, .next⟩,
    ⟨"conv.ovf.u1.un", 0x86, .none, .next⟩,
    ⟨"conv.ovf.u2.un", 0x87, .none, .next⟩,
    ⟨"conv.ovf.u4.un", 0x88, .none, .next⟩,
    ⟨"conv.ovf.u8.un", 0x89, .none, .next⟩,
    ⟨"conv.ovf.i.un", 0x8A, .none, .next⟩,
    ⟨"conv.ovf.u.un", 0x8B, .none, .next⟩,
    ⟨"box", 0x8C, .type, .next⟩,
    ⟨"newarr", 0x8D, .type, .next⟩,
    ⟨"ldlen", 0x8E, .none, .next⟩,
    ⟨"ldelema", 0x8F, .type, .next⟩,
    ⟨"ldelem.i1", 0x90, .none, .next⟩,
    ⟨"ldelem.u1", 0x91, .none, .next⟩,
    ⟨"ldelem.i2", 0x92, .none, .next⟩,
    ⟨"ldelem.u2", 0x93, .none, .next⟩,
    ⟨"ldelem.i4", 0x94, .none, .next⟩,
    ⟨"ldelem.u4", 0x95, .none, .next⟩,
    ⟨"ldelem.i8", 0x96, .none, .next⟩,
    ⟨"ldelem.i", 0x97, .none, .next⟩,
    ⟨"ldelem.r4", 0x98, .none, .next⟩,
    ⟨"ldelem.r8", 0x99, .none, .next⟩,
    ⟨"ldelem.ref", 0x9A, .none, .next⟩,
    ⟨"stelem.i", 0x9B, .none, .next⟩,
    ⟨"stelem.i1", 0x9C, .none, .next⟩,
    ⟨"stelem.i2", 0x9D, .none, .next⟩,
    ⟨"stelem.i4", 0x9E, .none, .next⟩,
    ⟨"stelem.i8", 0x9F, .none, .next⟩,
    ⟨"stelem.r4", 0xA0, .none, .next⟩,
    ⟨"stelem.r8", 0xA1, .none, .next⟩,
    ⟨"stelem.ref", 0xA2, .none, .next⟩,
    ⟨"ldelem", 0xA3, .type, .next⟩,
    ⟨"stelem", 0xA4, .type, .next⟩,
    ⟨"unbox.any", 0xA5, .type, .next⟩,
    ⟨"conv.ovf.i1", 0xB3, .none, .next⟩,
    ⟨"conv.ovf.u1", 0xB4, .none, .next⟩,
    ⟨"conv.ovf.i2", 0xB5, .none, .next⟩,
    ⟨"conv.ovf.u2", 0xB6, .none, .next⟩,
    ⟨"conv.ovf.i4", 0xB7, .none, .next⟩,
    ⟨"conv.ovf.u4", 0xB8, .none, .next⟩,
    ⟨"conv.ovf.i8", 0xB9, .none, .next⟩,
    ⟨"conv.ovf.u8", 0xBA, .none, .next⟩,
    ⟨"refanyval", 0xC2, .type, .next⟩,
    ⟨"ckfinite", 0xC3, .none, .next⟩,
    ⟨"mkrefany", 0xC6, .type, .next⟩,
    ⟨"ldtoken", 0xD0, .tok, .next⟩,
    ⟨"conv.u2", 0xD1, .none, .next⟩,
    ⟨"conv.u1", 0xD2, .none, .next⟩,
    ⟨"conv.i", 0xD3, .none, .next⟩,
    ⟨"conv.ovf.i", 0xD4, .none, .next⟩,
    ⟨"conv.ovf.u", 0xD5, .none, .next⟩,
    ⟨"add.ovf", 0xD6, .none, .next⟩,
    ⟨"add.ovf.un", 0xD7, .none, .next⟩,
    ⟨"mul.ovf", 0xD8, .none, .next⟩,
    ⟨"mul.ovf.un", 0xD9, .none, .next⟩,
    ⟨"sub.ovf", 0xDA, .none, .next⟩,
    ⟨"sub.ovf.un", 0xDB, .none, .next⟩,
    ⟨"endfinally", 0xDC, .none, .returns⟩,
    ⟨"leave", 0xDD, .longBranch, .branch⟩,
    ⟨"leave.s", 0xDE, .shortBranch, .branch⟩,
    ⟨"stind.i", 0xDF, .none, .next⟩,
    ⟨"conv.u", 0xE0, .none, .next⟩ ]

/-- The two-byte opcodes, by ascending value. -/
def twoByte : List Opcode :=
  [ ⟨"arglist", 0xFE00, .none, .next⟩,
    ⟨"ceq", 0xFE01, .none, .next⟩,
    ⟨"cgt", 0xFE02, .none, .next⟩,
    ⟨"cgt.un", 0xFE03, .none, .next⟩,
    ⟨"clt", 0xFE04, .none, .next⟩,
    ⟨"clt.un", 0xFE05, .none, .next⟩,
    ⟨"ldftn", 0xFE06, .method, .next⟩,
    ⟨"ldvirtftn", 0xFE07, .method, .next⟩,
    ⟨"ldarg", 0xFE09, .localIndex, .next⟩,
    ⟨"ldarga", 0xFE0A, .localIndex, .next⟩,
    ⟨"starg", 0xFE0B, .localIndex, .next⟩,
    ⟨"ldloc", 0xFE0C, .localIndex, .next⟩,
    ⟨"ldloca", 0xFE0D, .localIndex, .next⟩,
    ⟨"stloc", 0xFE0E, .localIndex, .next⟩,
    ⟨"localloc", 0xFE0F, .none, .next⟩,
    ⟨"endfilter", 0xFE11, .none, .returns⟩,
    ⟨"unaligned.", 0xFE12, .uint8, .modifier⟩,
    ⟨"volatile.", 0xFE13, .none, .modifier⟩,
    ⟨"tail.", 0xFE14, .none, .modifier⟩,
    ⟨"initobj", 0xFE15, .type, .next⟩,
    ⟨"constrained.", 0xFE16, .type, .modifier⟩,
    ⟨"cpblk", 0xFE17, .none, .next⟩,
    ⟨"initblk", 0xFE18, .none, .next⟩,
    ⟨"no.", 0xFE19, .uint8, .modifier⟩,
    ⟨"rethrow", 0xFE1A, .none, .throws⟩,
    ⟨"sizeof", 0xFE1C, .type, .next⟩,
    ⟨"refanytype", 0xFE1D, .none, .next⟩,
    ⟨"readonly.", 0xFE1E, .none, .modifier⟩ ]

def table : List Opcode := oneByte ++ twoByte

/-- Looks an opcode up by its 16-bit value. -/
def ofValue? (value : UInt16) : Option Opcode := table.find? (·.value == value)

/-- Looks up the opcode that is the single byte `b`. -/
def ofByte? (b : UInt8) : Option Opcode := ofValue? b.toUInt16

/-- The value of the two-byte opcode with second byte `b`. -/
def extendedValue (b : UInt8) : UInt16 := 0xFE00 ||| b.toUInt16

/-- Looks up the two-byte opcode with second byte `b`. -/
def ofSecondByte? (b : UInt8) : Option Opcode := ofValue? (extendedValue b)

end Cil.Opcode
