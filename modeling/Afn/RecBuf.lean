import Afn.Package

/-!
# The receive buffer of a connection

`EventConnection.cpp`: what a connection keeps of the bytes it has read, and what the loop of `RecBuf` that parses
packages off them leaves. The loop itself calls the virtual `handlePackage`; it is in `Session`, with the
`handlePackage` of a power connection.
-/

namespace Afn

open Bytes Access AFNPackage

def BUF_SIZE : Nat := 4000

structure EventConnection where
  m_buffer : Option Bytes
  m_buffer_size : Nat
  deriving DecidableEq, Repr

-- a call of `ParseProto` on the `msgLen` bytes `data` at `pMsg`, and what it returns
structure ParseCall where
  data : Bytes
  errCode : Int
  eatLen : Nat
  pkg : AFNPackage
  deriving DecidableEq, Repr

def ParseCall.slice (c : ParseCall) : Bytes := c.data.take c.eatLen

-- the packages of the calls that return `YQER_OK`: they are given to `handlePackage`
def accepted (calls : List ParseCall) : List AFNPackage :=
  (calls.filter fun c => decide (c.errCode = YQER_OK)).map ParseCall.pkg

-- what the parse loop leaves behind, with the calls of the parser it has made
structure Parsed where
  con : EventConnection
  bufferedData : Bool
  calls : List ParseCall
  errCode : Int
  deriving DecidableEq, Repr

namespace EventConnection

def construct : EventConnection := ⟨none, 0⟩

/-- The size is raised before the old bytes are copied: both copies use the new size. The bytes of a
new array are indeterminate; they are zeros here. -/
def appendData2Buffer (self : EventConnection) (msg : Bytes) : Acc EventConnection := do
  let size := self.m_buffer_size + msg.length
  let nBuffer := List.replicate size 0
  let m_buffer ← deref self.m_buffer
  let old ← readAt m_buffer 0 size
  let nBuffer ← writeAt nBuffer 0 old
  let nBuffer ← writeAt nBuffer size msg
  return ⟨some nBuffer, size⟩

/-- The bytes left when the parser waits for more: moved to the front of the buffer they stand in
(`parseBuffer`), or copied to a new one. -/
def keep (self : EventConnection) (parseBuffer : Bool) (data : Bytes) : Acc EventConnection := do
  if parseBuffer then
    let m_buffer ← deref self.m_buffer
    let m_buffer ← writeAt m_buffer 0 data
    return ⟨some m_buffer, data.length⟩
  else
    return ⟨some data, data.length⟩

def kept (self : EventConnection) : Bytes :=
  match self.m_buffer with
  | some b => b.take self.m_buffer_size
  | none => []

end EventConnection

end Afn
