/-
# Opcodes

The machine instructions that the library knows, each with its mnemonic and its encoding format.
-/

namespace GpuWaits

/-- The encoding format of an instruction, which fixes what sort of operation it is. -/
inductive Format where
  | sop1
  | sop2
  | sopp
  | smem
  | ds
  | ldsDir
  | exp
  | flat
  | global
  | scratch
  | mubuf
  | mtbuf
  | mimg
  | valu
  | vinterpInreg
  | pseudoBarrier
deriving DecidableEq, Repr

/-- A machine instruction. -/
inductive Opcode where
  | sMovB32
  | sMovB64
  | sSetpcB64
  | sSendmsgRtnB32
  | sSendmsgRtnB64
  | sAddU32
  | sAndB64
  | sCselectB32
  | sNop
  | sEndpgm
  | sBranch
  | sCbranchScc0
  | sCbranchExecz
  | sBarrier
  | sSendmsg
  | sSendmsghalt
  | sWaitcnt
  | sWaitcntDepctr
  | sLoadDword
  | sLoadDwordx2
  | sLoadDwordx4
  | sBufferLoadDword
  | sBufferLoadDwordx4
  | dsReadB32
  | dsReadB64
  | dsWriteB32
  | dsAddU32
  | dsAddRtnU32
  | dsOrderedCount
  | ldsParamLoad
  | ldsDirectLoad
  | exp
  | flatLoadDword
  | flatLoadDwordx2
  | flatStoreDword
  | flatLoadShortD16
  | flatLoadShortD16Hi
  | globalLoadDword
  | globalLoadDwordx2
  | globalLoadDwordx4
  | globalStoreDword
  | globalAtomicAdd
  | globalLoadUbyteD16
  | globalLoadShortD16
  | globalLoadShortD16Hi
  | scratchLoadDword
  | scratchStoreDword
  | scratchLoadShortD16
  | scratchLoadShortD16Hi
  | bufferLoadDword
  | bufferLoadDwordx2
  | bufferLoadDwordx4
  | bufferStoreDword
  | bufferAtomicAdd
  | bufferLoadUbyteD16
  | bufferLoadShortD16
  | bufferLoadShortD16Hi
  | bufferLoadFormatD16Xyz
  | tbufferLoadFormatX
  | tbufferLoadFormatD16X
  | tbufferLoadFormatD16Xyz
  | imageSample
  | imageSampleLz
  | imageLoad
  | imageStore
  | imageMsaaLoad
  | imageBvh64IntersectRay
  | vMovB32
  | vAddF32
  | vMulF32
  | vAddU32
  | vCndmaskB32
  | vInterpP10F32Inreg
  | pBarrier
deriving DecidableEq, Repr

namespace Opcode

/-- Every opcode, in the order of the numbers that images use. -/
def all : List Opcode :=
  [.sMovB32, .sMovB64, .sSetpcB64, .sSendmsgRtnB32, .sSendmsgRtnB64, .sAddU32, .sAndB64,
    .sCselectB32, .sNop, .sEndpgm, .sBranch, .sCbranchScc0, .sCbranchExecz, .sBarrier, .sSendmsg,
    .sSendmsghalt, .sWaitcnt, .sWaitcntDepctr, .sLoadDword, .sLoadDwordx2, .sLoadDwordx4,
    .sBufferLoadDword, .sBufferLoadDwordx4, .dsReadB32, .dsReadB64, .dsWriteB32, .dsAddU32,
    .dsAddRtnU32, .dsOrderedCount, .ldsParamLoad, .ldsDirectLoad, .exp, .flatLoadDword,
    .flatLoadDwordx2, .flatStoreDword, .flatLoadShortD16, .flatLoadShortD16Hi, .globalLoadDword,
    .globalLoadDwordx2, .globalLoadDwordx4, .globalStoreDword, .globalAtomicAdd,
    .globalLoadUbyteD16, .globalLoadShortD16, .globalLoadShortD16Hi, .scratchLoadDword,
    .scratchStoreDword, .scratchLoadShortD16, .scratchLoadShortD16Hi, .bufferLoadDword,
    .bufferLoadDwordx2, .bufferLoadDwordx4, .bufferStoreDword, .bufferAtomicAdd,
    .bufferLoadUbyteD16, .bufferLoadShortD16, .bufferLoadShortD16Hi, .bufferLoadFormatD16Xyz,
    .tbufferLoadFormatX, .tbufferLoadFormatD16X, .tbufferLoadFormatD16Xyz, .imageSample,
    .imageSampleLz, .imageLoad, .imageStore, .imageMsaaLoad, .imageBvh64IntersectRay, .vMovB32,
    .vAddF32, .vMulF32, .vAddU32, .vCndmaskB32, .vInterpP10F32Inreg, .pBarrier]

/-- The mnemonic and the format of an opcode. -/
def entry : Opcode → String × Format
  | .sMovB32 => ("s_mov_b32", .sop1)
  | .sMovB64 => ("s_mov_b64", .sop1)
  | .sSetpcB64 => ("s_setpc_b64", .sop1)
  | .sSendmsgRtnB32 => ("s_sendmsg_rtn_b32", .sop1)
  | .sSendmsgRtnB64 => ("s_sendmsg_rtn_b64", .sop1)
  | .sAddU32 => ("s_add_u32", .sop2)
  | .sAndB64 => ("s_and_b64", .sop2)
  | .sCselectB32 => ("s_cselect_b32", .sop2)
  | .sNop => ("s_nop", .sopp)
  | .sEndpgm => ("s_endpgm", .sopp)
  | .sBranch => ("s_branch", .sopp)
  | .sCbranchScc0 => ("s_cbranch_scc0", .sopp)
  | .sCbranchExecz => ("s_cbranch_execz", .sopp)
  | .sBarrier => ("s_barrier", .sopp)
  | .sSendmsg => ("s_sendmsg", .sopp)
  | .sSendmsghalt => ("s_sendmsghalt", .sopp)
  | .sWaitcnt => ("s_waitcnt", .sopp)
  | .sWaitcntDepctr => ("s_waitcnt_depctr", .sopp)
  | .sLoadDword => ("s_load_dword", .smem)
  | .sLoadDwordx2 => ("s_load_dwordx2", .smem)
  | .sLoadDwordx4 => ("s_load_dwordx4", .smem)
  | .sBufferLoadDword => ("s_buffer_load_dword", .smem)
  | .sBufferLoadDwordx4 => ("s_buffer_load_dwordx4", .smem)
  | .dsReadB32 => ("ds_read_b32", .ds)
  | .dsReadB64 => ("ds_read_b64", .ds)
  | .dsWriteB32 => ("ds_write_b32", .ds)
  | .dsAddU32 => ("ds_add_u32", .ds)
  | .dsAddRtnU32 => ("ds_add_rtn_u32", .ds)
  | .dsOrderedCount => ("ds_ordered_count", .ds)
  | .ldsParamLoad => ("lds_param_load", .ldsDir)
  | .ldsDirectLoad => ("lds_direct_load", .ldsDir)
  | .exp => ("exp", .exp)
  | .flatLoadDword => ("flat_load_dword", .flat)
  | .flatLoadDwordx2 => ("flat_load_dwordx2", .flat)
  | .flatStoreDword => ("flat_store_dword", .flat)
  | .flatLoadShortD16 => ("flat_load_short_d16", .flat)
  | .flatLoadShortD16Hi => ("flat_load_short_d16_hi", .flat)
  | .globalLoadDword => ("global_load_dword", .global)
  | .globalLoadDwordx2 => ("global_load_dwordx2", .global)
  | .globalLoadDwordx4 => ("global_load_dwordx4", .global)
  | .globalStoreDword => ("global_store_dword", .global)
  | .globalAtomicAdd => ("global_atomic_add", .global)
  | .globalLoadUbyteD16 => ("global_load_ubyte_d16", .global)
  | .globalLoadShortD16 => ("global_load_short_d16", .global)
  | .globalLoadShortD16Hi => ("global_load_short_d16_hi", .global)
  | .scratchLoadDword => ("scratch_load_dword", .scratch)
  | .scratchStoreDword => ("scratch_store_dword", .scratch)
  | .scratchLoadShortD16 => ("scratch_load_short_d16", .scratch)
  | .scratchLoadShortD16Hi => ("scratch_load_short_d16_hi", .scratch)
  | .bufferLoadDword => ("buffer_load_dword", .mubuf)
  | .bufferLoadDwordx2 => ("buffer_load_dwordx2", .mubuf)
  | .bufferLoadDwordx4 => ("buffer_load_dwordx4", .mubuf)
  | .bufferStoreDword => ("buffer_store_dword", .mubuf)
  | .bufferAtomicAdd => ("buffer_atomic_add", .mubuf)
  | .bufferLoadUbyteD16 => ("buffer_load_ubyte_d16", .mubuf)
  | .bufferLoadShortD16 => ("buffer_load_short_d16", .mubuf)
  | .bufferLoadShortD16Hi => ("buffer_load_short_d16_hi", .mubuf)
  | .bufferLoadFormatD16Xyz => ("buffer_load_format_d16_xyz", .mubuf)
  | .tbufferLoadFormatX => ("tbuffer_load_format_x", .mtbuf)
  | .tbufferLoadFormatD16X => ("tbuffer_load_format_d16_x", .mtbuf)
  | .tbufferLoadFormatD16Xyz => ("tbuffer_load_format_d16_xyz", .mtbuf)
  | .imageSample => ("image_sample", .mimg)
  | .imageSampleLz => ("image_sample_lz", .mimg)
  | .imageLoad => ("image_load", .mimg)
  | .imageStore => ("image_store", .mimg)
  | .imageMsaaLoad => ("image_msaa_load", .mimg)
  | .imageBvh64IntersectRay => ("image_bvh64_intersect_ray", .mimg)
  | .vMovB32 => ("v_mov_b32", .valu)
  | .vAddF32 => ("v_add_f32", .valu)
  | .vMulF32 => ("v_mul_f32", .valu)
  | .vAddU32 => ("v_add_u32", .valu)
  | .vCndmaskB32 => ("v_cndmask_b32", .valu)
  | .vInterpP10F32Inreg => ("v_interp_p10_f32_inreg", .vinterpInreg)
  | .pBarrier => ("p_barrier", .pseudoBarrier)

/-- The mnemonic of an opcode. -/
def mnemonic (o : Opcode) : String := o.entry.1

/-- The encoding format of an opcode. -/
def format (o : Opcode) : Format := o.entry.2

/-- The opcode with a given mnemonic. -/
def ofMnemonic? (name : String) : Option Opcode := all.find? fun o => o.mnemonic == name

/-- The halves of its destination that a vector memory load writes, two bits a register, the low
half first.  Only the 16-bit loads leave a half alone. -/
def writtenHalves : Opcode → BitVec 32
  | .bufferLoadUbyteD16 | .bufferLoadShortD16 | .tbufferLoadFormatD16X | .flatLoadShortD16
  | .globalLoadUbyteD16 | .globalLoadShortD16 | .scratchLoadShortD16 => 0x1#32
  | .bufferLoadShortD16Hi | .flatLoadShortD16Hi | .globalLoadShortD16Hi
  | .scratchLoadShortD16Hi => 0x2#32
  | .bufferLoadFormatD16Xyz | .tbufferLoadFormatD16Xyz => 0x7#32
  | _ => 0xffffffff#32

theorem mem_all (o : Opcode) : o ∈ all := by cases o <;> decide

end Opcode

end GpuWaits
