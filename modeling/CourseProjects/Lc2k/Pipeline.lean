import CourseProjects.Lc2k.Fields

/-!
# The pipeline simulator

The five-stage loop of the second LC-2K simulator. A cycle computes `newState`
from `state`, one stage after the other: every stage reads the latches and
registers as they were before the cycle, and the MEM stage of a taken branch
overwrites what the younger stages have computed in the same cycle.

The simulator prints the state before each cycle and does not depend on what it
printed; `numMemory`, which bounds the printing, is left out. So are the checks
of the command line and of the input file: a run starts with both memories
loaded.
-/

namespace CourseProjects.Lc2k.Pipeline

/-! ### Opcodes -/

abbrev ADD : Word := 0
abbrev NOR : Word := 1
abbrev LW : Word := 2
abbrev SW : Word := 3
abbrev BEQ : Word := 4
abbrev HALT : Word := 6

/-- The `NOOPINSTRUCTION`. -/
abbrev noopInstruction : Word := 0x1c00000

/-! ### The state -/

/-- An `IFIDType`. -/
structure IFID where
  instr : Word
  pcPlus1 : Word

/-- An `IDEXType`. -/
structure IDEX where
  instr : Word
  pcPlus1 : Word
  readRegA : Word
  readRegB : Word
  offset : Word

/-- An `EXMEMType`. -/
structure EXMEM where
  instr : Word
  branchTarget : Word
  aluResult : Word
  readRegB : Word

/-- A `MEMWBType`. -/
structure MEMWB where
  instr : Word
  writeData : Word

/-- A `WBENDType`. -/
structure WBEND where
  instr : Word
  writeData : Word

/-- A `stateType`. -/
structure State where
  pc : Word
  instrMem : Memory
  dataMem : Memory
  reg : Registers
  ifid : IFID
  idex : IDEX
  exmem : EXMEM
  memwb : MEMWB
  wbend : WBEND
  cycles : Word

/-- What the initialization before the loop sets. The other fields of the latches
    are left as they are. -/
structure Initialized (state : State) : Prop where
  cycles : state.cycles = 0
  pc : state.pc = 0
  reg : ∀ i, state.reg i = 0
  ifid : state.ifid.instr = noopInstruction
  idex : state.idex.instr = noopInstruction
  exmem : state.exmem.instr = noopInstruction
  memwb : state.memwb.instr = noopInstruction
  wbend : state.wbend.instr = noopInstruction

/-- A loaded program, with zero in the fields that the initialization leaves. -/
def load (program : Memory) : State where
  pc := 0
  instrMem := program
  dataMem := program
  reg _ := 0
  ifid := ⟨noopInstruction, 0⟩
  idex := ⟨noopInstruction, 0, 0, 0, 0⟩
  exmem := ⟨noopInstruction, 0, 0, 0⟩
  memwb := ⟨noopInstruction, 0⟩
  wbend := ⟨noopInstruction, 0⟩
  cycles := 0

theorem initialized_load (program : Memory) : Initialized (load program) :=
  ⟨rfl, rfl, fun _ => rfl, rfl, rfl, rfl, rfl, rfl⟩

/-! ### The stages -/

/-- The IF stage. -/
def ifStage (state newState : State) : Option State := do
  let i ← index numMemory state.pc
  return { newState with
    ifid := { instr := state.instrMem i, pcPlus1 := state.pc + 1 }
    pc := newState.pc + 1 }

/-- The ID stage. -/
def idStage (state newState : State) : Option State := do
  let regA ← index numRegs (field0 state.ifid.instr)
  let regB ← index numRegs (field1 state.ifid.instr)
  return { newState with
    idex :=
      { instr := state.ifid.instr
        pcPlus1 := state.ifid.pcPlus1
        readRegA := state.reg regA
        readRegB := state.reg regB
        offset := convertNum (field2 state.ifid.instr) } }

/-- The `aluResult` of the EX stage; `aluResult` is what the latch holds so far. -/
def alu (idex : IDEX) (aluResult : Word) : Word :=
  let aluInput0 := idex.readRegA
  let aluInput1 :=
    if opcode idex.instr = 2 ∨ opcode idex.instr = 3 then idex.offset else idex.readRegB
  if opcode idex.instr = ADD then aluInput0 + aluInput1
  else if opcode idex.instr = NOR then ~~~(aluInput0 ||| aluInput1)
  else if opcode idex.instr = BEQ then aluInput0 - aluInput1
  else if opcode idex.instr = LW ∨ opcode idex.instr = SW then aluInput0 + aluInput1
  else aluResult

/-- The EX stage. -/
def exStage (state newState : State) : State :=
  { newState with
    exmem :=
      { aluResult := alu state.idex newState.exmem.aluResult
        instr := state.idex.instr
        readRegB := state.idex.readRegB
        branchTarget := state.idex.pcPlus1 + state.idex.offset } }

/-- What a taken branch clears. -/
def squash (newState : State) : State :=
  { newState with
    exmem :=
      { instr := noopInstruction, readRegB := 0, branchTarget := 0, aluResult := 0 }
    idex :=
      { instr := noopInstruction, readRegA := 0, readRegB := 0, offset := 0, pcPlus1 := 0 }
    ifid := { instr := noopInstruction, pcPlus1 := 0 } }

/-- The MEM stage. -/
def memStage (state newState : State) : Option State := do
  let newState := { newState with memwb := { newState.memwb with instr := state.exmem.instr } }
  if opcode state.exmem.instr = ADD ∨ opcode state.exmem.instr = NOR then
    return { newState with memwb := { newState.memwb with writeData := state.exmem.aluResult } }
  else if opcode state.exmem.instr = LW then
    let i ← index numMemory state.exmem.aluResult
    return { newState with memwb := { newState.memwb with writeData := state.dataMem i } }
  else if opcode state.exmem.instr = SW then
    let i ← index numMemory state.exmem.aluResult
    return { newState with dataMem := Function.update newState.dataMem i state.exmem.readRegB }
  else if opcode state.exmem.instr = BEQ ∧ state.exmem.aluResult = 0 then
    return squash { newState with pc := state.exmem.branchTarget }
  else
    return newState

/-- The WB stage. -/
def wbStage (state newState : State) : Option State := do
  let newState ←
    if opcode state.memwb.instr = 2 then do
      let i ← index numRegs (field1 state.memwb.instr)
      pure { newState with reg := Function.update newState.reg i state.memwb.writeData }
    else if opcode state.memwb.instr = 0 ∨ opcode state.memwb.instr = 1 then do
      let i ← index numRegs (field2 state.memwb.instr)
      pure { newState with reg := Function.update newState.reg i state.memwb.writeData }
    else
      pure newState
  return { newState with
    wbend := { instr := state.memwb.instr, writeData := state.memwb.writeData } }

/-- One round of the loop. -/
def cycle (state : State) : Option State := do
  let newState := { state with cycles := state.cycles + 1 }
  let newState ← ifStage state newState
  let newState ← idStage state newState
  let newState := exStage state newState
  let newState ← memStage state newState
  wbStage state newState

/-- The test for halt. -/
def halted (state : State) : Bool :=
  opcode state.memwb.instr == HALT

/-- The loop, for at most `fuel` tests for halt. -/
def run (fuel : ℕ) (state : State) : Except Loop.Stop State :=
  Loop.loop halted cycle fuel state

end CourseProjects.Lc2k.Pipeline
