import ClassForge.Json.Codec

/-!
# Messages

Workers and servers are called by messages: a call of a method is answered by a return with the same
number, and events are reported in between.
-/

namespace ClassForge

open Json (Encode Decode encode)

inductive Message where
  | call (method : String) (args : List Datum) (id : UInt64)
  | answer (result : Option Datum) (error : Option String) (id : UInt64)
  | event (name : String) (data : Datum)
deriving DecidableEq

namespace Message

def ofOutcome (id : UInt64) : Except String Datum → Message
  | .ok result => answer (some result) none id
  | .error message => answer none (some message) id

def readyName : String := "ready"

def ready : Message := event readyName (.ofJson .null)

def isReady : Message → Bool
  | event name _ => name = readyName
  | _ => false

end Message

instance : Encode Message := ⟨fun
  | .call method args id => .object [("type", .string "callMethod"), ("methodName", .string method),
      ("args", encode args), ("callId", encode id)]
  | .answer result error id => .object ([("type", .string "methodReturn")] ++
      Json.fieldOf? "result" result ++ Json.fieldOf? "error" error ++ [("callId", encode id)])
  | .event name data => .object [("type", .string "event"), ("event", .string name),
      ("data", encode data)]⟩

instance : Decode Message := ⟨Json.readFields do
  let tag : String ← Json.required "type"
  match tag with
  | "callMethod" =>
    let method ← Json.required "methodName"
    let args ← Json.defaulted "args" []
    return .call method args (← Json.required "callId")
  | "methodReturn" =>
    let result ← Json.defaulted "result" none
    let error ← Json.defaulted "error" none
    return .answer result error (← Json.required "callId")
  | "event" =>
    let name ← Json.required "event"
    return .event name (← Json.defaulted "data" (.ofJson .null))
  | other => throw (.unknownVariant other ["callMethod", "methodReturn", "event"])⟩

end ClassForge
