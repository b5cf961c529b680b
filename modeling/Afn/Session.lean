import Afn.Server

/-!
# A power connection at work

`RecBuf` of `EventConnection.cpp` with the `handlePackage` of `ConnectionPower.cpp`: every package is handled
before the next one is parsed.
-/

namespace Afn

open Bytes Access AFNPackage

/-- The two parts of the object: the buffer of `EventConnection`, and what `ConnectionPower` adds. -/
structure Session where
  buf : EventConnection
  con : ConnectionPower

namespace Session

/-- The loop of `RecBuf` on the `msgLen` bytes `data` at `pMsg`; `calls` is no part of the program. -/
def parseLoop (buf : EventConnection) (parseBuffer : Bool) :
    (fuel : Nat) → (con : ConnectionPower) → (data : Bytes) → (errCode : Int) → Srv (Parsed × ConnectionPower)
  | 0, _, _, _ => throw .outOfFuel
  | fuel + 1, con, data, errCode => do
    if 0 < data.length then
      let w ← get
      let (errCode, eatLen, pkg) ← liftAcc ((AFNPackage.construct w.mem).parseProto data)
      let call : ParseCall := ⟨data, errCode, eatLen, pkg⟩
      -- `pMsg += eatLen; msgLen -= eatLen`
      let msgLen ← liftAcc (sub32 data.length eatLen)
      let data := slice data eatLen msgLen
      if errCode = YQER_OK then
        let (con, errCode) ← con.receive pkg
        let (r, con) ← parseLoop buf parseBuffer fuel con data errCode
        return ({ r with calls := call :: r.calls }, con)
      else if errCode = YQER_PKG_Err 1 then
        let buf ← liftAcc (buf.keep parseBuffer data)
        return (⟨buf, true, [call], errCode⟩, con)
      else
        let (r, con) ← parseLoop buf parseBuffer fuel con data errCode
        return ({ r with calls := call :: r.calls }, con)
    else
      return (⟨buf, false, [], errCode⟩, con)

/-- The loop on the working buffer, and the release of `m_buffer` after it. Every round but the last eats some
bytes, so their number bounds the rounds. -/
def recLoop (self : Session) (parseBuffer : Bool) (data : Bytes) : Srv (Session × List ParseCall) := do
  let (r, con) ← parseLoop self.buf parseBuffer (data.length + 1) self.con data YQER_OK
  if r.bufferedData = false ∧ r.con.m_buffer.isSome then
    return (⟨⟨none, 0⟩, con⟩, r.calls)
  else
    return (⟨r.con, con⟩, r.calls)

/-- `RecBuf` after a read of `msg`, with the packages given to `handlePackage`. Its caller ignores the error
code. -/
def recBuf (self : Session) (msg : Bytes) : Srv (Session × List AFNPackage) := do
  let (buf, data, parseBuffer) ← match self.buf.m_buffer with
    | some _ => do
      let buf ← liftAcc (self.buf.appendData2Buffer msg)
      let m_buffer ← liftAcc (deref buf.m_buffer)
      pure (buf, m_buffer.take buf.m_buffer_size, true)
    | none => pure (self.buf, msg, false)
  let (self, calls) ← recLoop ⟨buf, self.con⟩ parseBuffer data
  return (self, accepted calls)

def recBufs : Session → List Bytes → Srv (Session × List AFNPackage)
  | self, [] => pure (self, [])
  | self, msg :: msgs => do
    let (self, handed) ← self.recBuf msg
    let (self, later) ← self.recBufs msgs
    return (self, handed ++ later)

end Session

end Afn
