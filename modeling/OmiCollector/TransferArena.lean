import OmiCollector.ByteCodec

/-! The notifications of a ring transfer and the arena that assembles its records. -/
namespace TransferArena

open ByteCodec (Bytes fromBytesBig)

def recordSize : ℕ := 444

def notifyAck : UInt8 := 0x01
def notifyData : UInt8 := 0x03
def notifyDone : UInt8 := 0x04
def notifyReadBegin : UInt8 := 0x05

structure DoneNotification where
  status : UInt8
  nextSequence : ℕ
  deriving DecidableEq, Repr

structure ReadBeginNotification where
  transferStartSequence : ℕ
  packetCount : ℕ
  deriving DecidableEq, Repr

/-- The checks of every fixed-size notification. -/
def requireNotification (payload : Bytes) (length : ℕ) (opcode : UInt8) (label : String) :
    Except String Unit :=
  if payload.length ≠ length then .error (label ++ " has the wrong length")
  else if payload.head? ≠ some opcode then .error (label ++ " has the wrong opcode")
  else .ok ()

def readUint (payload : Bytes) (offset size : ℕ) : ℕ := fromBytesBig ((payload.drop offset).take size)

def parseAckNotification (payload : Bytes) : Except String UInt8 := do
  requireNotification payload 2 notifyAck "ACK notification"
  pure (payload.getD 1 0)

def parseDoneNotification (payload : Bytes) : Except String DoneNotification := do
  requireNotification payload 10 notifyDone "DONE notification"
  pure ⟨payload.getD 1 0, readUint payload 2 8⟩

def parseReadBeginNotification (payload : Bytes) : Except String ReadBeginNotification := do
  requireNotification payload 13 notifyReadBegin "READ_BEGIN notification"
  pure ⟨readUint payload 1 8, readUint payload 9 4⟩

def parseDataNotification (payload : Bytes) : Except String Bytes :=
  match payload with
  | [] => .error "DATA notification is empty"
  | opcode :: data =>
    if opcode ≠ notifyData then .error "DATA notification has the wrong opcode" else .ok data

/-- One bounded snapshot: what was received of it, and the selected leg. -/
structure Arena where
  startSequence : ℕ
  totalRecords : ℕ
  received : Bytes
  submittedBytes : ℕ
  legStart : ℕ
  legBytes : ℕ
  legTotalBytes : ℕ
  deriving DecidableEq, Repr

def Arena.completeRecords (a : Arena) : ℕ := a.received.length / recordSize

def Arena.partialTail (a : Arena) : Bytes := a.received.drop (a.completeRecords * recordSize)

/-- Select a reconnect leg inside the snapshot, at or before the next expected record. -/
def Arena.beginLeg (a : Arena) (startSequence recordCount : ℕ) : Except String Arena :=
  if recordCount = 0 then .error "record_count must be positive"
  else if startSequence < a.startSequence then .error "leg starts before the snapshot"
  else if a.startSequence + a.totalRecords < startSequence + recordCount then
    .error "leg extends beyond the snapshot"
  else if a.startSequence + a.completeRecords < startSequence then
    .error "leg starts after the next expected sequence"
  else .ok { a with
    legStart := startSequence, legBytes := 0, legTotalBytes := recordCount * recordSize }

/-- Copy one fragment into the selected leg; replayed bytes are compared, not written again. -/
def Arena.append (a : Arena) (fragment : Bytes) : Except String Arena :=
  let absoluteStart := (a.legStart - a.startSequence) * recordSize + a.legBytes
  let absoluteEnd := absoluteStart + fragment.length
  let overlapEnd := min absoluteEnd a.received.length
  if a.legTotalBytes - a.legBytes < fragment.length then .error "fragment exceeds the selected leg"
  else if a.totalRecords * recordSize < absoluteEnd then .error "fragment exceeds the snapshot"
  else if absoluteStart < overlapEnd ∧
      (a.received.drop absoluteStart).take (overlapEnd - absoluteStart) ≠
        fragment.take (overlapEnd - absoluteStart) then
    .error "replayed bytes differ from the received prefix"
  else .ok { a with
    received := a.received ++ fragment.drop (max absoluteStart a.received.length - absoluteStart)
    legBytes := a.legBytes + fragment.length }

/-- Hand every complete record to the writer; submission never moves backward. -/
def Arena.submit (a : Arena) : Except String Arena :=
  if a.completeRecords * recordSize < a.submittedBytes then
    .error "submitted prefix cannot move backward"
  else .ok { a with submittedBytes := a.completeRecords * recordSize }

/-- Every byte and every whole record of the selected leg arrived. -/
def Arena.legComplete (a : Arena) (count : ℕ) : Bool :=
  decide (a.legBytes = count * recordSize ∧ a.legBytes / recordSize = count)

end TransferArena
