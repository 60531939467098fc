import Mathlib.Algebra.Group.Int.Defs
import Mathlib.Algebra.Group.Nat.Defs

/-!
# Errors and build-time configuration

The error codes the modelled calls return, and the constants the kernel is
built with. Addresses and sizes are natural numbers; the machine word has 32
bits, so checked additions compare with `usizeMax`.
-/
namespace Nanvix

/-- The codes of `sys::error::ErrorCode` that the modelled calls return. -/
inductive ErrorCode where
  | badAddress
  | badFile
  | interrupted
  | invalidArgument
  | invalidMessage
  | messageTooLong
  | noSuchEntry
  | noSuchProcess
  | operationNotPermitted
  | operationNotSupported
  | operationTimedOut
  | outOfMemory
  | permissionDenied
  | resourceBusy
  | tryAgain
  | valueOverflow
  deriving DecidableEq, Repr

/-- An error carries a code and the reason text. -/
structure Error where
  code : ErrorCode
  reason : String
  deriving DecidableEq, Repr

namespace Config

/-- Largest value of a machine word. -/
def usizeMax : Nat := 2 ^ 32 - 1

def pageSize : Nat := 4096
def pageTableLength : Nat := 1024

def userBase : Nat := 0x40000000
def userEnd : Nat := 0xf0000000
def userStackSize : Nat := 4 * 1024 * 1024

def kernelWatermark : Nat := 64
def kstackSize : Nat := 65536
def maxThreads : Nat := 32
def maxProcesses : Nat := 255
def mutexOpenMax : Nat := 32
def condOpenMax : Nat := 32
def linkChunk : Nat := 32

def maxIkcMessages : Nat := 128
def ikcPollBatchSize : Nat := 8
def ipcMessageSize : Nat := 64

end Config
end Nanvix
