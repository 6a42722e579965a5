import Mathlib.Data.Fintype.Basic
import Blake3.Lib.ReleaseAcquire

/-!
The choice of a hardware backend, made once and lazily by whichever caller comes
first: `rmr_hwif_bootstrap` and `rmr_hwif_current`, called by any number of
threads at any time.
-/

namespace Blake3.Hwif

open ReleaseAcquire

/-! ### Backends -/

inductive Arch
  | x86_64
  | aarch64
  | arm
  | other
  deriving DecidableEq

/-- What `rmr_arch.h` and the command line tell the build. -/
structure BuildTarget where
  arch : Arch
  osLinux : Bool
  armv7AssumePrivileged : Bool

/-- The tables of operations the pointer `g_current` may point to. -/
inductive Ops
  | fallback
  | aarch64
  | x86_64
  | armv7User
  | armv7Privileged
  deriving DecidableEq

def capTimeHardware : UInt32 := (1 : UInt32) <<< 0
def capCpuIdHardware : UInt32 := (1 : UInt32) <<< 1
def capRawWriteDirect : UInt32 := (1 : UInt32) <<< 2
def capPrivilegedRegs : UInt32 := (1 : UInt32) <<< 3

def Ops.capabilityFlags : Ops → UInt32
  | .fallback => 0
  | .aarch64 =>
      capTimeHardware ||| capCpuIdHardware ||| capRawWriteDirect ||| capPrivilegedRegs
  | .x86_64 => capTimeHardware ||| capCpuIdHardware ||| capRawWriteDirect
  | .armv7User => capRawWriteDirect
  | .armv7Privileged => capTimeHardware ||| capCpuIdHardware ||| capPrivilegedRegs

def Ops.backendName : Ops → String
  | .fallback => "c_fallback"
  | .aarch64 => "aarch64_asm"
  | .x86_64 => "x86_64_asm"
  | .armv7User => "armv7_linux_user"
  | .armv7Privileged => "armv7_privileged"

/-- The probes of all backends: each leaves 1 in the register of the result. -/
def backendProbe (_ : Ops) : UInt64 := 1

def probed (ops selected : Ops) : Ops :=
  if backendProbe ops = 1 then ops else selected

/-- The backend that the initialising thread puts into `selected`. -/
def selected (target : BuildTarget) : Ops :=
  match target.arch with
  | .arm =>
      if target.armv7AssumePrivileged then probed .armv7Privileged .fallback
      else if target.osLinux then probed .armv7User .fallback
      else .fallback
  | .aarch64 => probed .aarch64 .fallback
  | .x86_64 => probed .x86_64 .fallback
  | .other => .fallback

/-- The checks of `rmr_hwif_selftest.c` on the operations it was given. -/
def hwifSelftest (target : BuildTarget) (ops : Ops) : ℕ :=
  if target.arch = .x86_64 ∧ ops.backendName ≠ "x86_64_asm" then 3
  else if target.arch = .x86_64 ∧ ops.capabilityFlags &&& capTimeHardware = 0 then 4
  else if target.arch = .x86_64 ∧ ops.capabilityFlags &&& capCpuIdHardware = 0 then 5
  else if target.arch = .arm ∧ target.osLinux ∧ ¬ target.armv7AssumePrivileged ∧
      ops.backendName ≠ "armv7_linux_user" then 6
  else if target.arch = .arm ∧ target.osLinux ∧ ¬ target.armv7AssumePrivileged ∧
      ops.capabilityFlags &&& capPrivilegedRegs ≠ 0 then 7
  else 0

/-! ### The callers -/

inductive Global
  | current
  | bootstrapState
  deriving DecidableEq

abbrev GlobalValue : Global → Type
  | .current => Ops
  | .bootstrapState => UInt8

def initialValue : ∀ g, GlobalValue g
  | .current => Ops.fallback
  | .bootstrapState => (0 : UInt8)

inductive Call
  | bootstrap
  | current

/-- Where a thread stands: between two calls, or before an access to memory. -/
inductive Pc
  | ready
  | currentLoad
  | bootstrapLoad
  | compareExchange
  | probe
  | storeCurrent (selected : Ops)
  | storeState (selected : Ops)
  | spin
  | loadCurrent
  deriving DecidableEq

/-- A thread with the calls it has still to make, what its calls so far have
returned, and how often it has run the probe. -/
structure Caller where
  todo : List Call
  pc : Pc := .ready
  results : List Ops := []
  probes : ℕ := 0

namespace Caller

def goto (s : Caller) (pc : Pc) : Caller := { s with pc := pc }

def give (s : Caller) (ops : Ops) : Caller :=
  { s with pc := .ready, results := s.results ++ [ops] }

/-- `rmr_hwif_bootstrap` and `rmr_hwif_current`, one access to memory at a time. -/
def next (target : BuildTarget) (s : Caller) : Act GlobalValue Caller :=
  match s.pc with
  | .ready =>
      match s.todo with
      | [] => .halt
      | .bootstrap :: todo => .own { s with todo := todo, pc := .bootstrapLoad }
      | .current :: todo => .own { s with todo := todo, pc := .currentLoad }
  | .currentLoad =>
      .load .bootstrapState fun state : UInt8 =>
        if state ≠ 2 then s.goto .bootstrapLoad else s.goto .loadCurrent
  | .bootstrapLoad =>
      .load .bootstrapState fun state : UInt8 =>
        if state = 2 then s.goto .loadCurrent else s.goto .compareExchange
  | .compareExchange =>
      .swap .bootstrapState (0 : UInt8) (1 : UInt8) (s.goto .probe) fun _ => s.goto .spin
  | .probe =>
      .own { s with pc := .storeCurrent (selected target), probes := s.probes + 1 }
  | .storeCurrent ops => .store .current ops (s.goto (.storeState ops))
  | .storeState ops => .store .bootstrapState (2 : UInt8) (s.give ops)
  | .spin =>
      .load .bootstrapState fun state : UInt8 =>
        if state ≠ 2 then s.goto .spin else s.goto .loadCurrent
  | .loadCurrent => .load .current fun ops : Ops => s.give ops

end Caller

abbrev State (ι : Type*) := Config GlobalValue ι Caller

variable {ι : Type*} [DecidableEq ι]

/-- All threads before their first call. -/
def State.init (calls : ι → List Call) : State ι :=
  Config.start initialValue fun i => { todo := calls i }

abbrev State.Reaches (target : BuildTarget) : State ι → State ι → Prop :=
  Reachable (Caller.next target)

end Blake3.Hwif
