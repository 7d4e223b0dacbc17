import IonaOs.Evm.StateDb
import IonaOs.Lib.Interp

/-!
# The interpreter
-/

namespace IonaOs.Evm

open Lib

/-- What the interpreter reads of `EvmConfig`. -/
structure EvmConfig where
  intrinsicGas : UInt64 := 21000
  gasPerZeroByte : UInt64 := 4
  gasPerNonzeroByte : UInt64 := 16
  maxStackDepth : ℕ := 1024
  enablePush0 : Bool := true

structure EvmLog where
  address : Address
  topics : List U256
  data : List UInt8

inductive Event where
  | paid (sender receiver : Address) (value : U128)
  | created (sender address : Address) (value : U128) (code : List UInt8)
  | destroyed (address beneficiary : Address)
  | stored (address : Address) (slot value : U256)
deriving DecidableEq

/-- The fields of `Vm` that a run does not change. -/
structure Frame where
  config : EvmConfig
  code : List UInt8
  caller : Address
  address : Address
  value : U128
  calldata : List UInt8
  gasLimit : UInt64
  staticCall : Bool

/-- `Vm::new` takes the caller for the origin. -/
def Frame.origin (f : Frame) : Address := f.caller

/-- The fields of `Vm` that every instruction may change.  The top of the stack comes first. -/
structure Machine where
  pc : ℕ := 0
  stack : List U256 := []
  memory : List UInt8 := []
  gas : UInt64
  output : List UInt8 := []
  logs : List EvmLog := []
  stopped : Bool := false
  reverted : Bool := false
  refund : UInt64 := 0

structure Vm where
  frame : Frame
  machine : Machine
  state : EvmStateDb
  trace : List Event

/-- `Vm::new`. -/
def Vm.new (frame : Frame) (state : EvmStateDb) : Vm :=
  ⟨frame, { gas := frame.gasLimit }, state, []⟩

/-! ## The machine -/

/-- `bytes[start..stop]`, if it does not panic. -/
def slice (bytes : List UInt8) (start stop : UInt64) : Option (List UInt8) :=
  if start ≤ stop ∧ stop.toNat ≤ bytes.length then
    some ((bytes.take stop.toNat).drop start.toNat)
  else none

/-- `Vec::resize(n, 0)`. -/
def resize (bytes : List UInt8) (n : ℕ) : List UInt8 :=
  bytes.take n ++ List.replicate (n - bytes.length) 0

namespace Machine

variable (m : Machine)

/-- The `i`-th value that the next pops give. -/
def arg (i : ℕ) : U256 := m.stack.getD i U256.zero

/-- `n` values popped. -/
def drop (n : ℕ) : Machine := { m with stack := m.stack.drop n }

/-- `Vm::push`. -/
def push (cfg : EvmConfig) (v : U256) : Machine :=
  if cfg.maxStackDepth ≤ m.stack.length then { m with reverted := true }
  else { m with stack := v :: m.stack }

/-- `Vm::use_gas`. -/
def useGas (amount : UInt64) : Machine :=
  if m.gas < amount then { m with reverted := true } else { m with gas := m.gas - amount }

/-- `Vm::mem_expand`. -/
def memExpand (offset size : UInt64) : Option Machine :=
  if size = 0 then some m
  else
    let need := offset + size
    if m.memory.length < need.toNat then
      let n := ((need + 31) / 32 * 32).toNat
      if n < 2 ^ 63 then some { m with memory := resize m.memory n } else none
    else some m

/-- Expand the memory and read `[offset..offset + size]`. -/
def memRead (offset size : UInt64) : Option (List UInt8 × Machine) := do
  let m ← m.memExpand offset size
  let data ← slice m.memory offset (offset + size)
  return (data, m)

/-- `self.memory[offset..offset + data.len()].copy_from_slice(data)`. -/
def memCopy (offset : UInt64) (data : List UInt8) : Option Machine := do
  let stop := offset + UInt64.ofNat data.length
  let _ ← slice m.memory offset stop
  return { m with memory := m.memory.take offset.toNat ++ data ++ m.memory.drop stop.toNat }

/-- The copy of the `*COPY` instructions: as much of the source as there is. -/
def copyFrom (src : List UInt8) (destOff srcOff len : UInt64) : Option Machine := do
  let m ← m.memExpand destOff len
  let data := (src.drop srcOff.toNat).take len.toNat
  if data = [] then return m else m.memCopy destOff data

def copyBack (offset : UInt64) (data : List UInt8) : Option Machine :=
  if data = [] then some m
  else (m.memExpand offset (UInt64.ofNat data.length)).bind (·.memCopy offset data)

def lend (amount : UInt64) : Machine := { m with gas := m.gas - amount }

def join (sub : Machine) : Machine :=
  { m with gas := m.gas + sub.gas, logs := m.logs ++ sub.logs }

end Machine

/-- The words of `len` bytes, in gas. -/
def wordCost (len : UInt64) : UInt64 := (len + 31) / 32

/-! ## Instructions that work on the machine alone -/

inductive BinOp where
  | add | mul | sub | div | sdiv | mod | smod | signextend
  | lt | gt | slt | sgt | eq | and | or | xor | byte | shl | shr | sar
deriving DecidableEq

namespace BinOp

open U256

/-- The result; the quotient of `i64::MIN` and `-1` panics. -/
def eval (op : BinOp) (a b : U256) : Option U256 :=
  let av := toU64 a
  let bv := toU64 b
  let ai := av.toInt64
  let bi := bv.toInt64
  let panics := ai = Int64.minValue ∧ bi = -1
  match op with
  | add => some (u256Add a b)
  | mul => some (u256Mul a b)
  | sub => some (u256Sub a b)
  | div => some (if bv = 0 then zero else fromU64 (av / bv))
  | sdiv => if bi = 0 then some zero else if panics then none else some (fromU64 (ai / bi).toUInt64)
  | mod => some (if bv = 0 then zero else fromU64 (av % bv))
  | smod => if bi = 0 then some zero else if panics then none else some (fromU64 (ai % bi).toUInt64)
  | signextend => some (signExtend a b)
  | lt => some (ofBool (av < bv))
  | gt => some (ofBool (bv < av))
  | slt => some (ofBool (ai < bi))
  | sgt => some (ofBool (bi < ai))
  | eq => some (ofBool (a = b))
  | and => some (a.zipWith (· &&& ·) b)
  | or => some (a.zipWith (· ||| ·) b)
  | xor => some (a.zipWith (· ^^^ ·) b)
  | byte => some (U256.byte a b)
  | shl => some (fromU64 (if 64 ≤ min av 255 then 0 else bv <<< min av 255))
  | shr => some (fromU64 (if 64 ≤ min av 255 then 0 else bv >>> min av 255))
  -- The shift is not guarded here; a release build takes it modulo 64.
  | sar => some (fromU64 (bi >>> (min av 255).toInt64).toUInt64)

def gas : BinOp → UInt64
  | mul | div | sdiv | mod | smod | signextend => 5
  | _ => 3

end BinOp

inductive UnOp where
  | iszero | not | calldataload | blockhash | balance | extcodesize | extcodehash | sload
deriving DecidableEq

namespace UnOp

open U256

def eval (op : UnOp) (f : Frame) (db : EvmStateDb) (a : U256) : U256 :=
  match op with
  | iszero => ofBool (a = zero)
  | not => a.map (~~~ ·)
  | calldataload => .ofFn fun i => f.calldata.getD (toU64 a + UInt64.ofNat i.val).toNat 0
  | blockhash => zero
  | balance => fromU128 (db.balance (toAddress a))
  | extcodesize => fromU64 (UInt64.ofNat (db.getAccount (toAddress a)).code.length)
  | extcodehash =>
    let code := (db.getAccount (toAddress a)).code
    if code = [] then zero else keccak256 code
  | sload => db.getStorage f.address a

def gas : UnOp → UInt64
  | iszero | not | calldataload => 3
  | blockhash => 20
  | balance | extcodesize | extcodehash | sload => 100

end UnOp

inductive EnvOp where
  | address | origin | caller | callvalue | calldatasize | codesize | gasprice | returndatasize
  | coinbase | timestamp | number | difficulty | gaslimit | chainid | selfbalance | basefee
  | pc | msize | gasleft
deriving DecidableEq

namespace EnvOp

open U256

/-- What is pushed.  `returndata_size` is never set, and the block is a constant. -/
def eval (op : EnvOp) (f : Frame) (db : EvmStateDb) (m : Machine) : U256 :=
  match op with
  | address => fromAddress f.address
  | origin => fromAddress f.origin
  | caller => fromAddress f.caller
  | callvalue => fromU128 f.value
  | calldatasize => fromU64 (UInt64.ofNat f.calldata.length)
  | codesize => fromU64 (UInt64.ofNat f.code.length)
  | gasprice | chainid | basefee => fromU64 1
  | returndatasize | timestamp | number => fromU64 0
  | coinbase | difficulty => zero
  | gaslimit => fromU64 f.gasLimit
  | selfbalance => fromU128 (db.balance f.address)
  | pc => fromU64 (UInt64.ofNat m.pc - 1)
  | msize => fromU64 (UInt64.ofNat m.memory.length)
  | gasleft => fromU64 m.gas

def gas : EnvOp → UInt64
  | selfbalance => 5
  | _ => 2

end EnvOp

/-- Where a `*COPY` instruction copies from.  The output stands for the data returned. -/
inductive CopySource where
  | calldata | code | output
deriving DecidableEq

def CopySource.bytes (src : CopySource) (f : Frame) (m : Machine) : List UInt8 :=
  match src with
  | calldata => f.calldata
  | code => f.code
  | output => m.output

inductive MachineInstr where
  | stop
  | binary (op : BinOp)
  | addmod
  | mulmod
  | exp
  | unary (op : UnOp)
  | env (op : EnvOp)
  | sha3
  | copy (src : CopySource)
  | extcodecopy
  | pop
  | mload
  | mstore
  | mstore8
  | jump
  | jumpi
  | jumpdest
  | push0
  | push (n : ℕ)
  | dup (n : ℕ)
  | swap (n : ℕ)
  | log (topics : ℕ)
  | ret
  | revert
  | invalid (op : UInt8)
deriving DecidableEq

inductive MachineResult where
  | panic
  | error (m : Machine) (e : EvmError)
  | next (m : Machine)

def MachineResult.ofOption {α : Type} (x : Option α) (next : α → MachineResult) : MachineResult :=
  match x with
  | none => panic
  | some a => next a

namespace MachineInstr

open U256 Machine MachineResult

/-- The jump of `JUMP` and `JUMPI`, before its gas. -/
def jumpTo (f : Frame) (m : Machine) (dest gas : UInt64) : MachineResult :=
  if f.code[dest.toNat]? = some 0x5B then .next (useGas { m with pc := dest.toNat + 1 } gas)
  else .error m (.invalidJumpDest dest)

/-- The gas of `EXP`: 50 for each byte of the exponent that counts. -/
def expCost (e : UInt64) : UInt64 :=
  10 + 50 * (if e = 0 then 0 else UInt64.ofNat (e.toNat.log2 + 1) / 8 + 1)

/-- The word that `PUSHn` reads; bytes beyond the code are zeros. -/
def pushWord (f : Frame) (pc n : ℕ) : U256 :=
  .ofFn fun i => if 32 - n ≤ i.val then f.code.getD (pc + (i.val - (32 - n))) 0 else 0

/-- The stack with its top and the value below at `n` exchanged. -/
def swapTop (stack : List U256) (n : ℕ) : List U256 :=
  (stack.set 0 (stack.getD n zero)).set n (stack.getD 0 zero)

def exec (f : Frame) (db : EvmStateDb) (m : Machine) : MachineInstr → MachineResult
  | stop => .next { m with stopped := true }
  | binary op => ofOption (op.eval (m.arg 0) (m.arg 1)) fun r =>
    .next (((m.drop 2).push f.config r).useGas op.gas)
  | addmod =>
    let n := (toU64 (m.arg 2)).toNat
    let sum := (toU64 (m.arg 0)).toNat + (toU64 (m.arg 1)).toNat
    .next (((m.drop 3).push f.config (if n = 0 then zero else ofNat (sum % n))).useGas 8)
  | mulmod =>
    let n := (toU64 (m.arg 2)).toNat
    let prod := (toU64 (m.arg 0)).toNat * (toU64 (m.arg 1)).toNat
    .next (((m.drop 3).push f.config (if n = 0 then zero else ofNat (prod % n))).useGas 8)
  | exp =>
    -- The gas is taken first here, and nothing is pushed without it.
    let e := toU64 (m.arg 1)
    let m' := (m.drop 2).useGas (expCost e)
    if m.gas < expCost e then .next m'
    else .next (m'.push f.config (fromU64 (toU64 (m.arg 0) ^ (min e 63).toNat)))
  | unary op => .next (((m.drop 1).push f.config (op.eval f db (m.arg 0))).useGas op.gas)
  | env op => .next ((m.push f.config (op.eval f db m)).useGas op.gas)
  | sha3 =>
    let len := toU64 (m.arg 1)
    ofOption ((m.drop 2).memRead (toU64 (m.arg 0)) len) fun (data, m) =>
      .next ((m.push f.config (keccak256 data)).useGas (30 + 6 * wordCost len))
  | copy src =>
    let len := toU64 (m.arg 2)
    let bytes := src.bytes f m
    ofOption ((m.drop 3).copyFrom bytes (toU64 (m.arg 0)) (toU64 (m.arg 1)) len) fun m =>
      .next (m.useGas (3 + 3 * wordCost len))
  | extcodecopy =>
    let len := toU64 (m.arg 3)
    let code := (db.getAccount (toAddress (m.arg 0))).code
    ofOption ((m.drop 4).copyFrom code (toU64 (m.arg 1)) (toU64 (m.arg 2)) len) fun m =>
      .next (m.useGas (100 + 3 * wordCost len))
  | pop => .next ((m.drop 1).useGas 2)
  | mload =>
    let off := toU64 (m.arg 0)
    ofOption ((m.drop 1).memRead off 32) fun (data, m) =>
      .next ((m.push f.config (.ofFn fun i => data.getD i.val 0)).useGas (3 + (off / 32 + 1) * 3))
  | mstore =>
    let off := toU64 (m.arg 0)
    let val := m.arg 1
    ofOption (((m.drop 2).memExpand off 32).bind (·.memCopy off val.toList)) fun m =>
      .next (m.useGas 3)
  | mstore8 =>
    let off := toU64 (m.arg 0)
    let val := m.arg 1
    ofOption (((m.drop 2).memExpand off 1).bind (·.memCopy off [val.get (Fin.last 31)])) fun m =>
      .next (m.useGas 3)
  | jump => jumpTo f (m.drop 1) (toU64 (m.arg 0)) 8
  | jumpi =>
    if m.arg 1 = zero then .next ((m.drop 2).useGas 10)
    else jumpTo f (m.drop 2) (toU64 (m.arg 0)) 10
  | jumpdest => .next (m.useGas 1)
  | push0 =>
    if f.config.enablePush0 then .next ((m.push f.config zero).useGas 2)
    else .error m (.invalidOpcode 0x5c)
  | push n => .next (({ m with pc := m.pc + n }.push f.config (pushWord f m.pc n)).useGas 3)
  | dup n =>
    .next ((if n ≤ m.stack.length then m.push f.config (m.arg (n - 1)) else m).useGas 3)
  | swap n =>
    .next ((if n < m.stack.length then { m with stack := swapTop m.stack n } else m).useGas 3)
  | log topics =>
    if f.staticCall then .error m .staticCallViolation
    else
      let len := toU64 (m.arg 1)
      let words := (List.range topics).map fun i => m.arg (2 + i)
      ofOption ((m.drop (2 + topics)).memRead (toU64 (m.arg 0)) len) fun (data, m) =>
        .next (useGas { m with logs := m.logs ++ [⟨f.address, words, data⟩] }
          (375 + 375 * UInt64.ofNat topics + 8 * len))
  | ret => ofOption ((m.drop 2).memRead (toU64 (m.arg 0)) (toU64 (m.arg 1))) fun (data, m) =>
    .next { m with output := data, stopped := true }
  | revert => ofOption ((m.drop 2).memRead (toU64 (m.arg 0)) (toU64 (m.arg 1))) fun (data, m) =>
    .next { m with output := data, reverted := true, stopped := true }
  | invalid op => .error m (.invalidOpcode op)

end MachineInstr

/-! ## Instructions that write accounts or start a run -/

inductive Outcome where
  | panicked
  | finished (vm : Vm) (result : Except EvmError Unit)

inductive Instr where
  | machine (i : MachineInstr)
  | sstore
  | create
  | create2
  | call
  | callcode
  | delegatecall
  | selfdestruct
deriving DecidableEq

namespace Vm

open U256 Machine

variable (vm : Vm)

def fail (e : EvmError) : Step Vm Outcome := .halt (.finished vm (.error e))

def orPanic {α : Type} (x : Option α) (next : α → Step Vm Outcome) : Step Vm Outcome :=
  match x with
  | none => .halt .panicked
  | some a => next a

def subGasLimit : UInt64 := vm.machine.gas * 63 / 64

def afterDeploy (state : EvmStateDb) (value : U128) (contractAddr : Address) (sub : Machine)
    (ok : Bool) : Vm :=
  let cfg := vm.frame.config
  if ok ∧ sub.output ≠ [] then
    { vm with
      machine := (vm.machine.push cfg (fromAddress contractAddr)).join sub
      state := (state.setAccount contractAddr { balance := value, code := sub.output }).commit
      trace := vm.trace ++ [.created vm.frame.caller contractAddr value sub.output] }
  else
    { vm with
      machine := (vm.machine.push cfg zero).join sub
      state
      trace := vm.trace ++ [.paid vm.frame.caller contractAddr value] }

/-- The code of `CREATE` and `CREATE2` from the transfer on. -/
def deploy (value : U128) (initCode : List UInt8) (contractAddr : Address) : Step Vm Outcome :=
  match vm.state.transfer vm.frame.caller contractAddr value with
  | .error e => vm.fail e
  | .ok state =>
    let subGas := vm.subGasLimit
    let frame : Frame :=
      ⟨vm.frame.config, initCode, vm.frame.caller, contractAddr, value, [], subGas, false⟩
    .enter (new frame (.new none)) fun
      | .panicked => .inl .panicked
      | .finished sub result =>
        let vm := { vm with machine := vm.machine.lend subGas }
        .inr (vm.afterDeploy state value contractAddr sub.machine result.isOk)

def afterCall (retOff retLen : UInt64) (sub : Machine) (ok : Bool) : Option Vm :=
  let cfg := vm.frame.config
  if ok then do
    let data := sub.output.take retLen.toNat
    let m ← vm.machine.copyBack retOff data
    return { vm with machine := (m.push cfg (fromU64 1)).join sub }
  else return { vm with machine := (vm.machine.push cfg zero).join sub }

/-- The code of `CALL`, `CALLCODE` and `DELEGATECALL` from the run of the code on. -/
def enterCall (gas : UInt64) (code : List UInt8) (address : Address) (value : U128)
    (calldata : List UInt8) (retOff retLen : UInt64) : Step Vm Outcome :=
  let subGas := min gas vm.subGasLimit
  let frame : Frame :=
    ⟨vm.frame.config, code, vm.frame.caller, address, value, calldata, subGas, false⟩
  .enter (new frame (.new none)) fun
    | .panicked => .inl .panicked
    | .finished sub result =>
      let vm := { vm with machine := vm.machine.lend subGas }
      match vm.afterCall retOff retLen sub.machine result.isOk with
      | none => .inl .panicked
      | some vm => .inr vm

/-- The transfer of `CALL` and `CALLCODE`, from the caller of this run. -/
def pay (receiver : Address) (value : U128) : Except EvmError Vm :=
  match vm.state.transfer vm.frame.caller receiver value with
  | .error e => .error e
  | .ok state =>
    .ok { vm with state, trace := vm.trace ++ [.paid vm.frame.caller receiver value] }

/-- The code of `CALL` and `CALLCODE`, where `at_` is the address that is paid and that the code
runs at. -/
def payAndCall (at_ : Address) : Step Vm Outcome :=
  let m := vm.machine
  let value := toU128 (m.arg 2)
  let popped := { vm with machine := m.drop 7 }
  if vm.frame.staticCall ∧ value ≠ 0 then popped.fail .staticCallViolation
  else orPanic ((m.drop 7).memRead (toU64 (m.arg 3)) (toU64 (m.arg 4))) fun (calldata, m') =>
    match { vm with machine := m' }.pay at_ value with
    | .error e => { vm with machine := m' }.fail e
    | .ok vm =>
      let code := (vm.state.getAccount (toAddress (m.arg 1))).code
      vm.enterCall (toU64 (m.arg 0)) code at_ value calldata (toU64 (m.arg 5)) (toU64 (m.arg 6))

/-- The code of `CREATE` and `CREATE2`, which pop `pops` values; `address` is the address of the
contract, given its init code. -/
def createWith (pops : ℕ) (address : List UInt8 → Address) : Step Vm Outcome :=
  if vm.frame.staticCall then vm.fail .staticCallViolation
  else
    let m := vm.machine.useGas 32000
    if vm.machine.gas < 32000 then .next { vm with machine := m }
    else orPanic ((m.drop pops).memRead (toU64 (m.arg 1)) (toU64 (m.arg 2))) fun (initCode, m') =>
      { vm with machine := m' }.deploy (toU128 (m.arg 0)) initCode (address initCode)

def exec : Instr → Step Vm Outcome
  | .machine i =>
    match i.exec vm.frame vm.state vm.machine with
    | .panic => .halt .panicked
    | .error m e => { vm with machine := m }.fail e
    | .next m => .next { vm with machine := m }
  | .sstore =>
    let m := vm.machine.drop 2
    let slot := vm.machine.arg 0
    let val := vm.machine.arg 1
    let address := vm.frame.address
    if vm.frame.staticCall then { vm with machine := m }.fail .staticCallViolation
    else
      let current := vm.state.getStorage address slot
      let bonus : UInt64 := if current = zero ∧ val ≠ zero then 4800 else 0
      let refund := if m.gas < 100 then m.refund else m.refund + bonus
      .next { vm with
        machine := { m.useGas 100 with refund }
        state := vm.state.setStorage address slot val
        trace := vm.trace ++ [.stored address slot val] }
  | .create =>
    let caller := vm.frame.caller
    vm.createWith 3 fun _ => computeCreateAddr caller (vm.state.getAccount caller).nonce
  | .create2 =>
    let salt := vm.machine.arg 3
    vm.createWith 4 fun initCode =>
      toAddress (keccak256 (0xff :: vm.frame.caller.toList ++ salt.toList ++
        (keccak256 initCode).toList))
  | .call => vm.payAndCall (toAddress (vm.machine.arg 1))
  | .callcode => vm.payAndCall vm.frame.address
  | .delegatecall =>
    let m := vm.machine
    orPanic ((m.drop 6).memRead (toU64 (m.arg 2)) (toU64 (m.arg 3))) fun (calldata, m') =>
      let code := (vm.state.getAccount (toAddress (m.arg 1))).code
      { vm with machine := m' }.enterCall (toU64 (m.arg 0)) code vm.frame.address vm.frame.value
        calldata (toU64 (m.arg 4)) (toU64 (m.arg 5))
  | .selfdestruct =>
    let m := vm.machine.drop 1
    let beneficiary := toAddress (vm.machine.arg 0)
    let address := vm.frame.address
    if vm.frame.staticCall then vm.fail .staticCallViolation
    else
      match vm.state.transfer address beneficiary (vm.state.balance address) with
      | .error e => { vm with machine := m }.fail e
      | .ok state => .next { vm with
          machine := useGas { m with stopped := true } 5000
          state := state.setAccount address {}
          trace := vm.trace ++ [.destroyed address beneficiary] }

end Vm

/-! ## The loop -/

open MachineInstr in
/-- The `match` over the opcode. -/
def decode (op : UInt8) : Instr :=
  if 0x60 ≤ op ∧ op ≤ 0x7f then .machine (push (op - 0x5f).toNat)
  else if 0x80 ≤ op ∧ op ≤ 0x8f then .machine (dup (op - 0x7f).toNat)
  else if 0x90 ≤ op ∧ op ≤ 0x9f then .machine (swap (op - 0x8f).toNat)
  else if 0xa0 ≤ op ∧ op ≤ 0xa4 then .machine (log (op - 0xa0).toNat)
  else
    match op with
    | 0x00 => .machine stop
    | 0x01 => .machine (binary .add)
    | 0x02 => .machine (binary .mul)
    | 0x03 => .machine (binary .sub)
    | 0x04 => .machine (binary .div)
    | 0x05 => .machine (binary .sdiv)
    | 0x06 => .machine (binary .mod)
    | 0x07 => .machine (binary .smod)
    | 0x08 => .machine addmod
    | 0x09 => .machine mulmod
    | 0x0a => .machine exp
    | 0x0b => .machine (binary .signextend)
    | 0x10 => .machine (binary .lt)
    | 0x11 => .machine (binary .gt)
    | 0x12 => .machine (binary .slt)
    | 0x13 => .machine (binary .sgt)
    | 0x14 => .machine (binary .eq)
    | 0x15 => .machine (unary .iszero)
    | 0x16 => .machine (binary .and)
    | 0x17 => .machine (binary .or)
    | 0x18 => .machine (binary .xor)
    | 0x19 => .machine (unary .not)
    | 0x1a => .machine (binary .byte)
    | 0x1b => .machine (binary .shl)
    | 0x1c => .machine (binary .shr)
    | 0x1d => .machine (binary .sar)
    | 0x20 => .machine sha3
    | 0x30 => .machine (env .address)
    | 0x31 => .machine (unary .balance)
    | 0x32 => .machine (env .origin)
    | 0x33 => .machine (env .caller)
    | 0x34 => .machine (env .callvalue)
    | 0x35 => .machine (unary .calldataload)
    | 0x36 => .machine (env .calldatasize)
    | 0x37 => .machine (copy .calldata)
    | 0x38 => .machine (env .codesize)
    | 0x39 => .machine (copy .code)
    | 0x3a => .machine (env .gasprice)
    | 0x3b => .machine (unary .extcodesize)
    | 0x3c => .machine extcodecopy
    | 0x3d => .machine (env .returndatasize)
    | 0x3e => .machine (copy .output)
    | 0x3f => .machine (unary .extcodehash)
    | 0x40 => .machine (unary .blockhash)
    | 0x41 => .machine (env .coinbase)
    | 0x42 => .machine (env .timestamp)
    | 0x43 => .machine (env .number)
    | 0x44 => .machine (env .difficulty)
    | 0x45 => .machine (env .gaslimit)
    | 0x46 => .machine (env .chainid)
    | 0x47 => .machine (env .selfbalance)
    | 0x48 => .machine (env .basefee)
    | 0x50 => .machine pop
    | 0x51 => .machine mload
    | 0x52 => .machine mstore
    | 0x53 => .machine mstore8
    | 0x54 => .machine (unary .sload)
    | 0x55 => .sstore
    | 0x56 => .machine jump
    | 0x57 => .machine jumpi
    | 0x58 => .machine (env .pc)
    | 0x59 => .machine (env .msize)
    | 0x5a => .machine (env .gasleft)
    | 0x5b => .machine jumpdest
    | 0x5c => .machine push0
    | 0xf0 => .create
    | 0xf1 => .call
    | 0xf2 => .callcode
    | 0xf3 => .machine ret
    | 0xf4 => .delegatecall
    | 0xf5 => .create2
    | 0xf7 => .selfdestruct
    | 0xfd => .machine revert
    | op => .machine (invalid op)

/-- One turn of the loop of `Vm::run`, or its end. -/
def Vm.step (vm : Vm) : Step Vm Outcome :=
  let m := vm.machine
  if m.stopped ∨ m.reverted then
    .halt (.finished vm (if m.reverted then .error (.revert m.output) else .ok ()))
  else
    match vm.frame.code[m.pc]? with
    | none => .halt (.finished vm (.ok ()))
    | some op => { vm with machine := { m with pc := m.pc + 1 } }.exec (decode op)

/-- `Vm::run`. -/
def run (n : ℕ) (vm : Vm) : Option Outcome := interp Vm.step n vm

end IonaOs.Evm
