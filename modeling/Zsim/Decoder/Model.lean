import Mathlib.Data.List.Basic
import Zsim.Lib.Machine
import Zsim.Lib.Word

/-!
# Decode stalls

The predecoder and the 4-1-1-1 decoders of `Decoder::decodeBbl` (decoder.cpp).  A basic block has
fewer than 2^32 instructions, so the counters that go up by one for an instruction are plain numbers.
-/

set_option autoImplicit false

namespace Zsim.Decoder

/-- What is known of an instruction: a fused branch has no uops of its own. -/
structure Instr where
  addr : Nat
  bytes : Nat
  uops : Nat
  deriving DecidableEq

def Instr.simple (ins : Instr) : Bool := ins.uops == 1 && decide (ins.bytes < 8)

/-! ## Predecoding -/

structure Predecoder where
  psz : Nat
  pcnt : Nat
  pblk : Nat
  pcyc : Nat

def predecode (startAddr : Nat) (pre : Predecoder) (ins : Instr) : Predecoder :=
  let block := u32 (u64Sub ins.addr startAddr / 16)
  let psz := u32 (pre.psz + ins.bytes)
  let pcnt := pre.pcnt + 1
  if 16 < psz ∨ 6 < pcnt ∨ pre.pblk < block then
    { psz := ins.bytes, pcnt := 1, pblk := block, pcyc := pre.pcyc + 1 }
  else { pre with psz := psz, pcnt := pcnt }

structure Predecoded where
  ins : Instr
  predecCycle : Nat
  deriving DecidableEq

def predecodeAll (startAddr : Nat) : Predecoder → List Instr → List Predecoded
  | _, [] => []
  | pre, ins :: rest =>
    ⟨ins, (predecode startAddr pre ins).pcyc⟩ ::
      predecodeAll startAddr (predecode startAddr pre ins) rest

/-- `predecCycle` of the instructions of a block -/
def predecoded (instrs : List Instr) : List Predecoded :=
  let startAddr := (instrs.head?.elim 0 Instr.addr) / 16 * 16
  predecodeAll startAddr ⟨0, 0, 0, 0⟩ instrs

/-! ## Decoding -/

/-- An instruction that went through the decoders, and `dcyc` as it did. -/
structure Decoded where
  ins : Instr
  predecCycle : Nat
  dcyc : Nat
  deriving DecidableEq

/-- `DynUop::decCycle` of its uops, a `uint16_t` -/
def Decoded.decCycle (d : Decoded) : Nat := d.dcyc % 2 ^ 16

structure DecState where
  dcyc : Nat
  dsimple : Nat
  dcomplex : Nat
  uopIdx : Nat
  /-- `decCycle` of the uops of the block; `none` before it is assigned -/
  uopVec : List (Option Nat)
  /-- ghost: the instructions that had uops to decode, in program order -/
  decoded : List Decoded
  deriving DecidableEq

namespace DecState

def await (st : DecState) (pcyc : Nat) : DecState :=
  if st.dcyc < pcyc then { st with dcyc := pcyc, dsimple := 0, dcomplex := 0 } else st

/-- The instruction is left for the next cycle. -/
def full (st : DecState) (simple : Bool) : Bool :=
  (simple && st.dsimple + st.dcomplex == 4) || (!simple && st.dcomplex == 1)

def nextCycle (st : DecState) : DecState := { st with dcyc := st.dcyc + 1, dsimple := 0, dcomplex := 0 }

/-- The cycle in which the instruction is decoded, and what it has decoded before. -/
def place (st : DecState) (pre : Predecoded) : DecState :=
  let st := st.await pre.predecCycle
  if st.full pre.ins.simple = true then st.nextCycle else st

def setCycles (uopVec : List (Option Nat)) (uopIdx decCycle uops : Nat) : List (Option Nat) :=
  (List.range uops).foldl (fun uopVec j => uopVec.set (u32 (uopIdx + j)) (some decCycle)) uopVec

def take (st : DecState) (pre : Predecoded) : DecState :=
  let d : Decoded := ⟨pre.ins, pre.predecCycle, st.dcyc⟩
  { st with
    dsimple := if pre.ins.simple = true then st.dsimple + 1 else st.dsimple
    dcomplex := if pre.ins.simple = true then st.dcomplex else st.dcomplex + 1
    uopIdx := u32 (st.uopIdx + pre.ins.uops)
    uopVec := setCycles st.uopVec st.uopIdx d.decCycle pre.ins.uops
    decoded := st.decoded ++ [d] }

def decode (st : DecState) (pre : Predecoded) : DecState :=
  if pre.ins.uops = 0 then st  -- fused branch
  else (st.place pre).take pre

end DecState

/-- `uopVec.size()` -/
def uops (instrs : List Instr) : Nat := instrs.foldr (fun ins total => ins.uops + total) 0

def start (instrs : List Instr) : DecState :=
  ⟨0, 0, 0, 0, List.replicate (uops instrs) none, []⟩

/-- The decode loop; every instruction is legal. -/
def decoder : Machine DecState Predecoded where
  legal _ _ := True
  step st pre := some (st.decode pre)

/-- `decodeBbl`, up to the assertion behind the loop -/
def decodeBbl (instrs : List Instr) : DecState :=
  (predecoded instrs).foldl DecState.decode (start instrs)

theorem exec_eq (inputs : List Predecoded) (st : DecState) :
    decoder.exec inputs st = some (inputs.foldl DecState.decode st) := by
  induction inputs generalizing st with
  | nil => rfl
  | cons pre rest ih => exact ih (st.decode pre)

theorem legalRun (inputs : List Predecoded) (st : DecState) : decoder.LegalRun inputs st :=
  Machine.along_of_forall (fun _ _ _ => trivial) st

theorem exec_decodeBbl (instrs : List Instr) :
    decoder.exec (predecoded instrs) (start instrs) = some (decodeBbl instrs) :=
  exec_eq (predecoded instrs) (start instrs)

end Zsim.Decoder
